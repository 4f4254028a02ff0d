import ChunkMachine.Proofs.Storage.Replacement
import Mathlib.Data.List.Perm.Subperm

set_option relaxedAutoImplicit false
set_option autoImplicit false

/-!
# What a replacement changes

A replacement that succeeds changes the entry at its target and no other one. One that fails changes
none; it leaves nothing behind but, at worst, one file of its own beside the target. While a file is
being replaced its old content is read, and then its new content, but not without a gap: there is a
moment at which no file is found.

## Main definitions

* `Leftover` — what a replacement that failed may leave behind.

## Main results

* `replaceFile_frame` — what a replacement changes.
* `replaceFile_states` — what is read at the target in the meantime.
-/

namespace ChunkMachine

/-- A tree is sparse if it has fewer entries altogether than temporary files are tried. This can be
seen at once of a tree that is given.

**Proof sketch.** The entries of a directory have different addresses, which are those of entries of
the tree or of the working directory. So there are at most as many of them and one. -/
theorem Tree.sparse_of_length {t : Tree} (h : t.entries.length + 1 < temporaryLimit) :
    t.Sparse := by
  intro dir names hnodup hentries
  have hsubset : names.map (fun name => dir ++ [name]) ⊆
      workingDirectory :: t.entries.map Prod.fst := by
    intro a ha
    obtain ⟨name, hname, rfl⟩ := List.mem_map.1 ha
    have hentry := hentries name hname
    -- the root and the working directory are there without an entry
    unfold get? at hentry
    split at hentry
    · rename_i hroot
      rcases hroot with hroot | hroot
      · simp at hroot
      · exact hroot ▸ List.mem_cons_self
    · refine List.mem_cons_of_mem _ ?_
      obtain ⟨entry, hlookup⟩ := Option.ne_none_iff_exists'.1 hentry
      obtain ⟨before, after, hsplit, -⟩ := List.lookup_eq_some_iff.1 hlookup
      simp [hsplit]
  have hinjective : (names.map fun name => dir ++ [name]).Nodup :=
    List.Pairwise.map _
      (fun x y hne heq => hne (List.singleton_inj.1 (List.append_cancel_left heq))) hnodup
  have hlength := (hinjective.subperm hsubset).length_le
  rw [List.length_map, List.length_cons, List.length_map] at hlength
  omega

/-! ## What is changed -/

/-- What a replacement that failed may leave behind: all is as it was, but for one new file, a
temporary one in the directory of the target. -/
inductive Leftover (path : String) (t t' : Tree) : Prop
  /-- Nothing is left behind. -/
  | nothing (hget : ∀ x, t'.get? x = t.get? x)
  /-- One temporary file is left behind, where there was nothing before. What it holds is not
  said. -/
  | temporary {name : List Char} {dir : Address} {i : Nat} {content : List UInt8}
      (hname : Path.fileName? path = some name)
      (hdir : t.directoryAt (Path.directory path) = .ok dir)
      (hfree : t.get? (dir ++ [temporaryName name i]) = none)
      (hget : ∀ x, t'.get? x =
        if x = dir ++ [temporaryName name i] then some (.file content) else t.get? x)

/-- **A replacement touches only its target.** If it succeeds, the new content stands at the target,
and all other entries are as they were; what was not there is not there now. If it fails, all
entries are as they were, and at most one temporary file beside the target is left behind. Some
temporary file is always free, as long as no directory is full of them.

**Proof sketch.** A replacement goes one of four ways. The temporary file has an address of its own,
at which there was nothing, and it is gone from there when it was moved. -/
theorem replaceFile_frame {d : Disk} (hsparse : d.tree.Sparse) (path : String)
    (content : List UInt8) :
    let run := replaceFile Disk.fileSystem path content d
    (run.1 = .ok () → ∃ a, run.2.tree.fileAt path = .ok (a, content) ∧
      ∀ x, x ≠ a → run.2.tree.get? x = d.tree.get? x) ∧
    ∀ e, run.1 = .error e → e ≠ .noFreeName path ∧ Leftover path d.tree run.2.tree := by
  intro run
  have hway : Replacement path content d run.1 run.2 := replacement path content d
  refine ⟨fun hok => ?_, fun e herror => ?_⟩
  · rw [hok] at hway
    obtain ⟨a, hfile, hget⟩ := hway.exists_of_ok
    exact ⟨a, hfile, fun x hx => by rw [hget, if_neg hx]⟩
  · rw [herror] at hway
    generalize run.2 = after at hway ⊢
    cases hway with
    | refused hfull => exact ⟨fun heq => hfull heq hsparse, .nothing fun _ => rfl⟩
    | abandoned hspare htarget =>
      obtain ⟨dir, hdir, rfl⟩ := hspare.names.eq_temporary hspare.fileName
      have hget := Disk.get?_prepared hspare.names content
      exact ⟨nofun, .temporary hspare.fileName hdir hspare.free hget⟩

/-- A file among others is replaced. A directory is not: a temporary file that was there is not
touched, and the content is left behind under the next name. -/
theorem replaceFile_frame_directory :
    let t : Tree := ⟨[([['.'], "d".toList], .directory), ([['.'], "d.tmp0".toList], .file [0x6F])]⟩
    let replaced := replaceFile Disk.fileSystem "d.tmp0" [0x6E] ⟨t, []⟩
    let failed := replaceFile Disk.fileSystem "d" [0x6E] ⟨t, []⟩
    t.Sparse ∧
      (replaced.1 = .ok () ∧ ∃ a, replaced.2.tree.fileAt "d.tmp0" = .ok (a, [0x6E]) ∧
        ∀ x, x ≠ a → replaced.2.tree.get? x = t.get? x) ∧
      failed.1 = .error (.system .isDirectory) ∧ Leftover "d" t failed.2.tree ∧
      failed.2.tree.entries = ([['.'], "d.tmp1".toList], .file [0x6E]) :: t.entries := by
  intro t replaced failed
  have hsparse : t.Sparse := Tree.sparse_of_length (by decide)
  have hreplaced : replaced.1 = .ok () := by decide +kernel
  have hfailed : failed.1 = .error (.system .isDirectory) := by decide +kernel
  have hframe (path : String) := replaceFile_frame (d := ⟨t, []⟩) hsparse path [0x6E]
  exact ⟨hsparse, ⟨hreplaced, (hframe "d.tmp0").1 hreplaced⟩, hfailed,
    ((hframe "d").2 _ hfailed).2, by decide +kernel⟩

/-! ## What is read in the meantime -/

/-- What is read at a path while the file there is removed and a temporary one is moved there, the
latest first.

**Proof sketch.** Along the way no directory is changed, so the path leads to the same address in
every tree. What is there is told by `get?_prepared`, `get?_erase` and `Spare.get?_replaced`. -/
theorem reads_replaced {d : Disk} {path : String} {name : List Char} {i : Nat} {a b : Address}
    {old : List UInt8} (hspare : d.tree.Spare path name i b) (hpath : d.tree.Names path a)
    (hold : d.tree.get? a = some (.file old)) (new : List UInt8) :
    let prepared := d.prepared b new
    let cleared := prepared.step (prepared.tree.erase a)
    (cleared.moved b a new).states.map (·.read path) =
      .ok new :: .error .notFound :: .ok old :: .ok old :: d.states.map (·.read path) := by
  intro prepared cleared
  have hne : a ≠ b := hpath.ne_temporary hspare.fileName hspare.names
  have hb := hspare.names.ordinary
  have hmade : (d.tree.put b (.file [])).read path = .ok old := by
    have hsame := Tree.sameDirectories_put hb (t := d.tree) (by simp [hspare.free]) []
    rw [(hsame.names_iff.1 hpath).read_eq, Tree.get?_put _ hb, if_neg hne, hold]
  have hsame : d.tree.SameDirectories prepared.tree :=
    Disk.sameDirectories_prepared hspare.names hspare.free new
  have hentry : prepared.tree.get? a = some (.file old) := by
    rw [Disk.get?_prepared hspare.names, if_neg hne, hold]
  have hprepared : prepared.tree.read path = .ok old := by
    rw [(hsame.names_iff.1 hpath).read_eq, hentry]
  have hcleared : cleared.tree.read path = .error .notFound := by
    have hsame' : prepared.tree.SameDirectories cleared.tree :=
      Tree.sameDirectories_erase hpath.ordinary (by simp [hentry])
    have hgone : cleared.tree.get? a = none := by
      change (prepared.tree.erase a).get? a = none
      rw [Tree.get?_erase _ hpath.ordinary, if_pos rfl]
    rw [((hsame.trans hsame').names_iff.1 hpath).read_eq, hgone]
  have hmoved : (cleared.moved b a new).tree.read path = .ok new := by
    rw [Tree.read, hpath.fileAt_eq_ok (by simp [hold]) (hspare.get?_replaced hpath.ordinary new)]
    rfl
  have hstates : (cleared.moved b a new).states.map (·.read path) =
      (cleared.moved b a new).tree.read path :: cleared.tree.read path ::
        prepared.tree.read path :: (d.tree.put b (.file [])).read path ::
          d.states.map (·.read path) := rfl
  rw [hstates, hmoved, hcleared, hprepared, hmade]

/-- **While a file is replaced** its old content is read, until it is removed. Then no file is
found, until the temporary file was moved, and from then on the new content is read. A replacement
that fails has done nothing.

**Proof sketch.** Since there is a file at the target, a replacement that was not refused removes it
and moves the temporary file. Paths lead to the same addresses in all trees along the way, and the
temporary file is not at the address of the target. -/
theorem replaceFile_states {t : Tree} {path : String} {old : List UInt8}
    (hread : t.read path = .ok old) (new : List UInt8) :
    let run := replaceFile Disk.fileSystem path new ⟨t, []⟩
    (run.1 = .ok () ∧ run.2.states.map (·.read path) =
        [.ok new, .error .notFound, .ok old, .ok old, .ok old]) ∨
      (∃ e, run.1 = .error e) ∧ run.2.states = [t] := by
  intro run
  have hway : Replacement path new ⟨t, []⟩ run.1 run.2 := replacement path new ⟨t, []⟩
  generalize run.1 = result, run.2 = after at hway ⊢
  cases hway with
  | refused hfull => exact .inr ⟨⟨_, rfl⟩, rfl⟩
  | abandoned hspare htarget =>
    obtain ⟨a, hpath, hentry⟩ := Tree.exists_of_read hread
    exact absurd (Tree.target_eq_ok_iff.2 ⟨hpath, by simp [hentry]⟩) (htarget a)
  | placed hspare hpath hfree =>
    rw [hpath.read_eq, hfree] at hread
    contradiction
  | replaced hspare hpath hold =>
    have hsame := hpath.read_eq.symm.trans hread
    rw [hold] at hsame
    cases hsame
    refine .inl ⟨rfl, (reads_replaced hspare hpath hold new).trans ?_⟩
    simp only [Disk.states, List.map_cons, List.map_nil, hread]

/-- A file of one byte is replaced by a file of one byte. All five trees along the way are read. -/
theorem replaceFile_states_one_byte :
    let t : Tree := ⟨[([['.'], ['a']], .file [0x6F])]⟩
    let run := replaceFile Disk.fileSystem "a" [0x6E] ⟨t, []⟩
    t.read "a" = .ok [0x6F] ∧ run.2.states.map (·.read "a") =
      [.ok [0x6E], .error .notFound, .ok [0x6F], .ok [0x6F], .ok [0x6F]] := by
  intro t run
  have hread : t.read "a" = .ok [0x6F] := by decide +kernel
  have hresult : run.1 = .ok () := by decide +kernel
  rcases replaceFile_states hread [0x6E] with ⟨-, hstates⟩ | ⟨⟨e, herror⟩, -⟩
  · exact ⟨hread, hstates⟩
  · exact absurd (hresult.symm.trans herror) nofun

/-- In one of the trees along the way there is no file at its path, so a replacement is not atomic.
A file of one byte shows it. -/
theorem not_forall_states_read :
    ¬ ∀ (t : Tree) (path : String) (old new : List UInt8), t.read path = .ok old →
      ∀ s ∈ (replaceFile Disk.fileSystem path new ⟨t, []⟩).2.states,
        s.read path = .ok old ∨ s.read path = .ok new := by
  intro hatomic
  have hread : (⟨[([['.'], ['a']], .file [0x6F])]⟩ : Tree).read "a" = .ok [0x6F] := by
    decide +kernel
  have hall := hatomic _ "a" [0x6F] [0x6E] hread
  revert hall
  decide +kernel

end ChunkMachine
