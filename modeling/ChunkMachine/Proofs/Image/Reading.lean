import ChunkMachine.Image

set_option relaxedAutoImplicit false
set_option autoImplicit false

/-!
# What the readers of images accept

Every reader of the image format is the exact inverse of a writer: it succeeds on the written form
of an admissible item, followed by anything, and on nothing else. The law is stated once as
`Image.Reads`, proved for the basic readers, and carried through sequences to whole images.

## Main definitions

* `Image.Reads` — a reader takes exactly the written forms of admissible items.

## Main results

* `Image.bind_eq_ok_iff` — a sequence of readers succeeds if each of them does.
* `Image.reads_many` — repetition inverts the written forms of the items, one after another.
* `Image.chunk_eq_ok_iff` — the payload reader takes exactly the payloads of well-formed chunks.
* `Image.decode_eq_ok_iff` — decoding takes exactly the images of well-formed chunks.
-/

namespace ChunkMachine.Image

/-- A reader takes exactly the written forms of admissible items, and leaves what follows. One
statement covers both directions: that what was written is read back, and that nothing else is
read. -/
def Reads {α : Type} (item : Reader α) (write : α → List UInt8) (admissible : α → Prop) : Prop :=
  ∀ source a rest, item source = .ok (a, rest) ↔ admissible a ∧ source = write a ++ rest

section Sequences

variable {α β : Type}

/-- A sequence of two readers succeeds exactly if the first does, and the second on what it left.
With this a reader for several fields becomes one existential, without unfolding the monad. -/
theorem bind_eq_ok_iff {item : Reader α} {next : α → Reader β} {source : List UInt8}
    {out : β × List UInt8} :
    (item >>= next) source = .ok out ↔
      ∃ a rest, item source = .ok (a, rest) ∧ next a rest = .ok out := by
  change (item source >>= fun p => next p.1 p.2) = .ok out ↔ _
  cases item source with
  | error fault => simp [bind, Except.bind]
  | ok p =>
    constructor
    · exact fun h => ⟨p.1, p.2, rfl, h⟩
    · rintro ⟨a, rest, hp, h⟩
      cases hp
      exact h

/-- On the written form of an item, a sequence goes on with the item and what follows. This is the
law for reading what was written. -/
theorem Reads.bind_append {item : Reader α} {write : α → List UInt8} {admissible : α → Prop}
    (h : Reads item write admissible) {a : α} (ha : admissible a) (next : α → Reader β)
    (rest : List UInt8) : (item >>= next) (write a ++ rest) = next a rest := by
  change (item (write a ++ rest) >>= fun p => next p.1 p.2) = _
  rw [(h _ a rest).2 ⟨ha, rfl⟩]
  rfl

/-- A reader that demands a condition succeeds exactly if it holds and the rest succeeds. The fault
does not matter for that. -/
theorem demand_eq_ok_iff {p : Prop} [Decidable p] {next : Reader β} {fault : Fault}
    {source : List UInt8} {out : β × List UInt8} :
    (if p then next else throw fault >>= fun _ : Unit => next) source = .ok out ↔
      p ∧ next source = .ok out := by
  by_cases hp : p
  · simp [hp]
  · simp only [hp, ↓reduceIte, false_and, iff_false]
    exact fun h => nomatch h

/-- A reader that excludes a condition succeeds exactly if it fails and the rest succeeds. It is the
last law with the branches the other way around. -/
theorem exclude_eq_ok_iff {p : Prop} [Decidable p] {next : Reader β} {fault : Fault}
    {source : List UInt8} {out : β × List UInt8} :
    (if p then throw fault >>= fun _ : Unit => next else next) source = .ok out ↔
      ¬p ∧ next source = .ok out := by
  rw [← ite_not]
  exact demand_eq_ok_iff

/-- A reader that takes nothing returns its result, and leaves all of the bytes. -/
theorem pure_eq_ok_iff {a b : α} {source rest : List UInt8} :
    (pure a : Reader α) source = .ok (b, rest) ↔ b = a ∧ rest = source := by
  change Except.ok (a, source) = .ok (b, rest) ↔ _
  simp [eq_comm]

end Sequences

/-! ## Basic readers -/

/-- A fixed number of bytes is written as itself. Admissible are byte strings of that length. -/
theorem reads_bytes (n : Nat) : Reads (bytes n) (fun bs => bs) fun bs => bs.length = n := by
  intro source bs rest
  simp only [bytes]
  constructor
  · intro h
    split at h
    · obtain ⟨rfl, rfl⟩ : source.take n = bs ∧ source.drop n = rest := by simpa using h
      exact ⟨‹_›, (List.take_append_drop n source).symm⟩
    · contradiction
  · rintro ⟨rfl, rfl⟩
    simp

/-- A number is written in little-endian order. Admissible are the numbers that fit into the
field. -/
theorem reads_number (width : Nat) :
    Reads (number width) (LittleEndian.encode width) fun n => n < 256 ^ width := by
  intro source n rest
  simp only [number, bind_eq_ok_iff, reads_bytes width _ _ _, pure_eq_ok_iff]
  constructor
  · rintro ⟨bs, _, ⟨rfl, rfl⟩, rfl, rfl⟩
    exact ⟨LittleEndian.decode_lt bs, by rw [LittleEndian.encode_decode]⟩
  · rintro ⟨hn, rfl⟩
    exact ⟨_, rest, ⟨LittleEndian.length_encode width n, rfl⟩,
      (LittleEndian.decode_encode hn).symm, rfl⟩

/-- A single byte is written as itself, and every byte is admissible. -/
theorem reads_byte : Reads byte (fun b => [b]) fun _ => True := by
  intro source b rest
  cases source with
  | nil => simp [byte]
  | cons head tail => simp [byte, eq_comm]

/-- A line number is written in four bytes, and every word of four bytes is one. -/
theorem reads_line : Reads line encodeLine fun _ => True := by
  intro source l rest
  simp only [line, bind_eq_ok_iff, reads_number 4 _ _ _, pure_eq_ok_iff, encodeLine]
  constructor
  · rintro ⟨n, _, ⟨hn, rfl⟩, rfl, rfl⟩
    exact ⟨trivial, by rw [UInt32.toNat_ofNat_of_lt' hn]⟩
  · rintro ⟨-, rfl⟩
    exact ⟨l.toNat, rest, ⟨l.toNat_lt, rfl⟩, by simp, rfl⟩

/-- A constant is written as its tag and its bits. No other tag is taken, and every pattern of bits
is a constant. -/
theorem reads_constant : Reads constant encodeConstant fun _ => True := by
  intro source v rest
  simp only [constant, bind_eq_ok_iff, reads_byte _ _ _, encodeConstant]
  constructor
  · rintro ⟨tag, after, ⟨-, rfl⟩, h⟩
    split at h
    · simp only [bind_eq_ok_iff, reads_number 8 _ _ _, pure_eq_ok_iff] at h
      obtain ⟨n, _, ⟨hn, rfl⟩, rfl, rfl⟩ := h
      exact ⟨trivial, by rw [UInt64.toNat_ofNat_of_lt' hn, ‹tag = numberTag›]; rfl⟩
    · contradiction
  · rintro ⟨-, rfl⟩
    refine ⟨numberTag, LittleEndian.encode 8 v.bits.toNat ++ rest, ⟨trivial, rfl⟩, ?_⟩
    simp only [↓reduceIte, bind_eq_ok_iff, reads_number 8 _ _ _, pure_eq_ok_iff]
    exact ⟨v.bits.toNat, rest, ⟨v.bits.toNat_lt, rfl⟩, by simp, rfl⟩

/-- The end is reached exactly if nothing is left. Nothing is left behind it either. -/
theorem finished_eq_ok_iff {source rest : List UInt8} {u : Unit} :
    finished source = .ok (u, rest) ↔ source = [] ∧ rest = [] := by
  cases source with
  | nil => simp [finished, eq_comm]
  | cons head tail => simp [finished]

/-! ## Repetition -/

section Repetition

variable {α : Type} {item : Reader α} {write : α → List UInt8}

/-- Repetition appends items to those already taken. The bytes begin with the written forms of the
items that were added, one behind the other.

**Proof sketch.** Induction on the number of items. The first one is read by the reader of one item,
and the others behind it. -/
theorem many_eq_ok_iff (h : Reads item write fun _ => True) {n : Nat} {taken all : Array α}
    {source rest : List UInt8} :
    many item n taken source = .ok (all, rest) ↔
      ∃ items : List α, items.length = n ∧ all = taken ++ items.toArray ∧
        source = items.flatMap write ++ rest := by
  induction n generalizing taken source with
  | zero =>
    simp only [many, pure_eq_ok_iff, List.length_eq_zero_iff]
    constructor
    · rintro ⟨rfl, rfl⟩
      exact ⟨[], rfl, by simp, by simp⟩
    · rintro ⟨_, rfl, rfl, rfl⟩
      simp
  | succ n ih =>
    simp only [many, bind_eq_ok_iff, h _ _ _, ih]
    constructor
    · rintro ⟨a, _, ⟨-, rfl⟩, items, rfl, rfl, rfl⟩
      exact ⟨a :: items, rfl, by simp, by simp⟩
    · rintro ⟨_ | ⟨a, items⟩, hlength, rfl, rfl⟩
      · contradiction
      · exact ⟨a, items.flatMap write ++ rest, ⟨trivial, by simp⟩, items,
          Nat.succ.inj hlength, by simp, rfl⟩

/-- Repetition inverts the written forms of the items, one after another. Admissible are arrays of
that many items. -/
theorem reads_many (h : Reads item write fun _ => True) (n : Nat) :
    Reads (many item n #[]) (fun all => all.toList.flatMap write) fun all => all.size = n := by
  intro source all rest
  rw [many_eq_ok_iff h]
  constructor
  · rintro ⟨items, rfl, rfl, rfl⟩
    simp
  · rintro ⟨rfl, rfl⟩
    exact ⟨all.toList, by simp, by simp, rfl⟩

end Repetition

/-! ## Whole images -/

/-- A length that fits into four bytes is not cut. Both lengths of a payload are such, as long as
the code is not too long. -/
theorem encodeLength_of_lt {n : Nat} (h : n < 2 ^ 32) :
    encodeLength n = LittleEndian.encode 4 n := by
  rw [encodeLength, Nat.min_eq_left (by omega)]

/-- **The payload reader** takes exactly the payloads of well-formed chunks whose code has a length
that fits into four bytes, and nothing may follow.

**Proof sketch.** The laws of the readers turn the sequence into one existential over the parts that
were read. The two length fields tie the number of constants and of lines to the parts before them,
which is what well-formedness says, since the number of lines itself is stored nowhere. -/
theorem chunk_eq_ok_iff {source rest : List UInt8} {c : Chunk} :
    chunk source = .ok (c, rest) ↔
      c.WellFormed ∧ c.code.size < 2 ^ 32 ∧ source = payload c ∧ rest = [] := by
  simp only [chunk, bind_eq_ok_iff, demand_eq_ok_iff, exclude_eq_ok_iff, pure_eq_ok_iff,
    reads_bytes _ _ _ _, reads_number _ _ _ _, reads_many reads_constant _ _ _ _,
    reads_many reads_line _ _ _ _, finished_eq_ok_iff]
  constructor
  · rintro ⟨_, _, ⟨-, rfl⟩, rfl, _, _, ⟨-, rfl⟩, rfl, _, _, ⟨-, rfl⟩, hpool, constants, _,
      ⟨rfl, rfl⟩, _, _, ⟨hcode, rfl⟩, code, _, ⟨rfl, rfl⟩, lines, _, ⟨hlines, rfl⟩, -, _,
      ⟨rfl, rfl⟩, rfl, rfl⟩
    have hpool : constants.size ≤ 256 := Nat.le_of_not_lt hpool
    refine ⟨⟨hlines, hpool⟩, hcode, ?_, rfl⟩
    simp only [payload, List.size_toArray, encodeLength_of_lt hcode,
      encodeLength_of_lt (show constants.size < 2 ^ 32 by omega), List.append_assoc,
      List.append_nil]
  · rintro ⟨hc, hcode, rfl, rfl⟩
    have hpool : c.constants.size ≤ 256 := hc.size_constants
    simp only [payload, encodeLength_of_lt hcode,
      encodeLength_of_lt (show c.constants.size < 2 ^ 32 by omega), List.append_assoc]
    exact ⟨mark, _, ⟨rfl, rfl⟩, rfl, version, _, ⟨by decide, rfl⟩, rfl, c.constants.size, _,
      ⟨by omega, rfl⟩, Nat.not_lt_of_le hpool, c.constants, _, ⟨rfl, rfl⟩, c.code.size, _,
      ⟨by omega, rfl⟩, c.code.toList, _, ⟨rfl, rfl⟩, c.lines, [], ⟨hc.size_lines, by simp⟩, (),
      [], ⟨rfl, rfl⟩, rfl, rfl⟩

/-- The shortest payload is that of the empty chunk. Its fields are all there, with lengths of
zero. -/
theorem length_payload_ge (c : Chunk) : 14 ≤ (payload c).length := by
  have hmark : mark.length = 4 := by decide +kernel
  simp only [payload, encodeLength, List.length_append, LittleEndian.length_encode, hmark]
  omega

/-- An image is a payload and the checksum of the payload behind it. -/
theorem encode_eq (c : Chunk) :
    encode c = payload c ++ LittleEndian.encode 4 (Checksum.crc32 (payload c)).toNat := rfl

/-- Four bytes denote a word exactly if they are what the word is written as. So comparing words is
comparing the bytes that they are written as. -/
theorem eq_ofNat_decode_iff {word : UInt32} {bs : List UInt8} (h : bs.length = 4) :
    word = UInt32.ofNat (LittleEndian.decode bs) ↔ bs = LittleEndian.encode 4 word.toNat := by
  have hlt : LittleEndian.decode bs < 2 ^ 32 := by simpa [h] using LittleEndian.decode_lt bs
  constructor
  · rintro rfl
    rw [UInt32.toNat_ofNat_of_lt' hlt, ← h, LittleEndian.encode_decode]
  · intro hbs
    rw [hbs, LittleEndian.decode_encode word.toNat_lt, UInt32.ofNat_toNat]

/-- Bytes that are long enough end in four bytes of checksum, and what is in front of these is at
least as long as the shortest payload. -/
theorem exists_trailer {image : List UInt8} (h : minLength ≤ image.length) :
    ∃ body trailer, image = body ++ trailer ∧ 14 ≤ body.length ∧ trailer.length = 4 := by
  unfold minLength at h
  refine ⟨image.take (image.length - 4), image.drop (image.length - 4),
    (List.take_append_drop _ _).symm, ?_, ?_⟩
  · rw [List.length_take]
    omega
  · rw [List.length_drop]
    omega

/-- Bytes that are long enough decode as what stands before their last four, if these hold its
checksum. Otherwise they are refused for the checksum, whatever else may be wrong with them. -/
theorem decode_append {body trailer : List UInt8} (hbody : 14 ≤ body.length)
    (htrailer : trailer.length = 4) :
    decode (body ++ trailer) =
      if trailer = LittleEndian.encode 4 (Checksum.crc32 body).toNat then
        match chunk body with
        | .ok (c, _) => .ok c
        | .error fault => .error (.format fault)
      else
        .error (.checksum (Checksum.crc32 body) (UInt32.ofNat (LittleEndian.decode trailer))) := by
  have hlength : ¬ (body ++ trailer).length < minLength := by
    simp only [List.length_append, minLength]
    omega
  have hcut : (body ++ trailer).length - 4 = body.length := by simp [htrailer]
  rw [decode, if_neg hlength, hcut, List.take_left, List.drop_left]
  by_cases h : trailer = LittleEndian.encode 4 (Checksum.crc32 body).toNat
  · have hword := (eq_ofNat_decode_iff htrailer).2 h
    exact (if_neg fun hne => hne hword).trans (if_pos h).symm
  · have hword := mt (eq_ofNat_decode_iff htrailer).1 h
    exact (if_pos hword).trans (if_neg h).symm

/-- **Decoding** takes exactly the images of well-formed chunks whose code has a length that fits
into four bytes.

**Proof sketch.** Bytes that are long enough end in four bytes of checksum. These four bytes are
what the number they denote is written as, so the checksum is accepted exactly if it is the one that
encoding appends; the rest is `chunk_eq_ok_iff`. -/
theorem decode_eq_ok_iff {image : List UInt8} {c : Chunk} :
    decode image = .ok c ↔ c.WellFormed ∧ c.code.size < 2 ^ 32 ∧ image = encode c := by
  constructor
  · intro h
    by_cases hshort : image.length < minLength
    · rw [decode, if_pos hshort] at h
      contradiction
    obtain ⟨body, trailer, rfl, hbody, htrailer⟩ := exists_trailer (Nat.le_of_not_lt hshort)
    rw [decode_append hbody htrailer] at h
    split at h
    · rename_i hchecksum
      split at h
      · rename_i c' rest hchunk
        cases h
        obtain ⟨hc, hcode, rfl, -⟩ := chunk_eq_ok_iff.1 hchunk
        exact ⟨hc, hcode, by rw [encode_eq, ← hchecksum]⟩
      · contradiction
    · contradiction
  · rintro ⟨hc, hcode, rfl⟩
    rw [encode_eq, decode_append (length_payload_ge c) (LittleEndian.length_encode _ _), if_pos rfl,
      chunk_eq_ok_iff.2 ⟨hc, hcode, rfl, rfl⟩]

end ChunkMachine.Image
