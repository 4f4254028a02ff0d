import ChunkMachine.Proofs.Chunk.Reachable

set_option relaxedAutoImplicit false
set_option autoImplicit false

/-!
# One image for every chunk, one chunk for every image

Writing a chunk and reading it back restores it bit by bit, and bytes that are read at all are what
their chunk is written as. So images and the chunks that fit into them are in bijection: nothing in
an image is ignored, padded or normalised.

## Main definitions

* `Chunk.agrees` — the comparison of chunks: bytes, lines, and constants by their bits.

## Main results

* `Image.decode_encode_of_reachable` — an image gives its chunk back, and tells chunks apart exactly
  as their comparison does.
* `Image.decode_canonical` — accepted bytes are the image of the chunk they decode to.
* `Image.decode_encode_of_oversized` — the length field bounds the code that images can hold.
-/

namespace ChunkMachine

/-- Whether two pools have the same length and, place by place, constants of the same bits. No two
numbers are compared as numbers, which would make the zeros equal and every NaN different from
itself. -/
def samePool (a b : Array Value) : Bool :=
  a.size == b.size && (a.zip b).all fun (v, w) => v.bits == w.bits

/-- Whether two chunks have the same code, the same lines and the same constants. A NaN is compared
by its bits like every other constant. -/
def Chunk.agrees (c d : Chunk) : Bool :=
  c.code == d.code && c.lines == d.lines && samePool c.constants d.constants

/-- Pools are compared as wholes: they have the same bits in the same places exactly if they are the
same. -/
theorem samePool_iff {a b : Array Value} : samePool a b = true ↔ a = b := by
  simp only [samePool, Bool.and_eq_true, beq_iff_eq, Array.all_eq_true]
  constructor
  · rintro ⟨hsize, hall⟩
    refine Array.ext hsize fun i hi hi' => ?_
    have hbits := hall i (by simp; omega)
    simp only [Array.getElem_zip] at hbits
    cases ha : a[i]
    cases hb : b[i]
    simp_all
  · rintro rfl
    simp

/-- The comparison of chunks is equality. So what is proved of equal chunks holds of chunks that
compare as equal, and the other way around. -/
theorem Chunk.agrees_iff {c d : Chunk} : c.agrees d = true ↔ c = d := by
  simp only [Chunk.agrees, Bool.and_eq_true, beq_iff_eq, samePool_iff]
  constructor
  · rintro ⟨⟨hcode, hlines⟩, hconstants⟩
    cases c
    cases d
    simp_all
  · rintro rfl
    simp

namespace Image

/-! ## Writing and reading back -/

/-- **Round trip**: the image of a chunk that can come about gives back the chunk, if its code has a
length that fits into four bytes. Two such chunks compare as equal exactly if their images are
equal.

**Proof sketch.** All chunks that can come about are well formed, so `decode_eq_ok_iff` applies.
Equal images decode to equal chunks. -/
theorem decode_encode_of_reachable {c : Chunk} (hc : c.Reachable) (hsize : c.code.size < 2 ^ 32) :
    decode (encode c) = .ok c ∧
      ∀ d : Chunk, d.Reachable → d.code.size < 2 ^ 32 →
        (c.agrees d = true ↔ encode c = encode d) := by
  have hdecode : decode (encode c) = .ok c := decode_eq_ok_iff.2 ⟨hc.wellFormed, hsize, rfl⟩
  refine ⟨hdecode, fun d hd hdsize => ?_⟩
  rw [Chunk.agrees_iff]
  constructor
  · rintro rfl
    rfl
  · intro himages
    have hdecode' : decode (encode d) = .ok d := decode_eq_ok_iff.2 ⟨hd.wellFormed, hdsize, rfl⟩
    rw [← himages, hdecode] at hdecode'
    exact Except.ok.inj hdecode'

/-- Two NaNs that differ in their payload, each before a negative zero that no code loads: both
chunks are restored, and their images differ. Neither would be so if constants were compared or
written as numbers. -/
theorem decode_encode_nan_payloads :
    let chunkOf (bits : UInt64) : Chunk :=
      (Chunk.empty.apply (.pushLoad ⟨bits⟩ 7)).apply (.pushConstant ⟨Value.signBit⟩)
    let c := chunkOf 0x7FF8000000000001
    let d := chunkOf 0x7FF8000000000002
    (c.Reachable ∧ c.code.size < 2 ^ 32) ∧ (d.Reachable ∧ d.code.size < 2 ^ 32) ∧
      decode (encode c) = .ok c ∧ decode (encode d) = .ok d ∧ encode c ≠ encode d := by
  intro chunkOf c d
  have hreachable (bits : UInt64) : (chunkOf bits).Reachable := .edited (.edited .empty _) _
  have hsize (bits : UInt64) : (chunkOf bits).code.size < 2 ^ 32 := by
    change 2 < 2 ^ 32
    decide
  have hc := decode_encode_of_reachable (hreachable 0x7FF8000000000001) (hsize _)
  have hd := decode_encode_of_reachable (hreachable 0x7FF8000000000002) (hsize _)
  refine ⟨⟨hreachable _, hsize _⟩, ⟨hreachable _, hsize _⟩, hc.1, hd.1, fun himages => ?_⟩
  exact absurd ((hc.2 d (hreachable _) (hsize _)).2 himages) (by decide +kernel)

/-! ## Reading and writing back -/

/-- **Canonical form**: accepted bytes are the image of the chunk they decode to, which has a line
for every code byte and a pool within its limit. So the accepted bytes are exactly the images of
well-formed chunks whose code has a length that fits into four bytes, and no chunk has two images.

**Proof sketch.** All three parts read `decode_eq_ok_iff` from left to right, and the second one
also from right to left. -/
theorem decode_canonical :
    (∀ image c, decode image = .ok c →
      encode c = image ∧ c.lines.size = c.code.size ∧ c.constants.size ≤ 256) ∧
    (∀ image, (∃ c, decode image = .ok c) ↔
      ∃ c : Chunk, c.WellFormed ∧ c.code.size < 2 ^ 32 ∧ image = encode c) ∧
    ∀ image image' c, decode image = .ok c → decode image' = .ok c → image = image' := by
  refine ⟨fun image c h => ?_, fun image => ?_, fun image image' c h h' => ?_⟩
  · obtain ⟨hc, -, himage⟩ := decode_eq_ok_iff.1 h
    exact ⟨himage.symm, hc.size_lines, hc.size_constants⟩
  · simp only [decode_eq_ok_iff]
  · rw [(decode_eq_ok_iff.1 h).2.2, (decode_eq_ok_iff.1 h').2.2]

/-- An image of one byte that is no opcode: what it decodes to is written as the same bytes.
Decoding does not look at what the code says, and neither does the theorem above. -/
theorem decode_canonical_stray_byte :
    let image : List UInt8 :=
      [76, 79, 88, 67, 1, 0, 0, 0, 0, 0, 1, 0, 0, 0, 0xAB, 7, 0, 0, 0, 162, 73, 42, 164]
    let c : Chunk := ⟨#[0xAB], #[7], #[]⟩
    decode image = .ok c ∧ encode c = image ∧ c.lines.size = c.code.size ∧
      c.constants.size ≤ 256 := by
  intro image c
  have himage : image = encode c := by decide +kernel
  have h : decode image = .ok c := decode_eq_ok_iff.2 ⟨⟨rfl, by decide⟩, by decide, himage⟩
  exact ⟨h, decode_canonical.1 image c h⟩

/-! ## The length field -/

/-- Lines take four bytes each, so the length of the line table is known from its number of
lines. -/
theorem length_flatMap_encodeLine (lines : List UInt32) :
    (lines.flatMap encodeLine).length = 4 * lines.length := by
  induction lines with
  | nil => rfl
  | cons line rest ih =>
    simp only [List.flatMap_cons, List.length_append, ih, encodeLine, LittleEndian.length_encode,
      List.length_cons]
    omega

/-- Any bytes that are long enough start with the written form of so many lines. Every word of four
bytes is a line, so a reader of lines can only fail where the bytes end. -/
theorem exists_lines {n : Nat} {source : List UInt8} (h : 4 * n ≤ source.length) :
    ∃ (lines : List UInt32) (rest : List UInt8),
      lines.length = n ∧ source = lines.flatMap encodeLine ++ rest := by
  induction n generalizing source with
  | zero => exact ⟨[], source, rfl, rfl⟩
  | succ n ih =>
    have hlong : 4 * n ≤ (source.drop 4).length := by
      rw [List.length_drop]
      omega
    obtain ⟨lines, rest, hlength, hrest⟩ := ih hlong
    have hline := (eq_ofNat_decode_iff (show (source.take 4).length = 4 by simp; omega)).1 rfl
    refine ⟨UInt32.ofNat (LittleEndian.decode (source.take 4)) :: lines, rest, by simp [hlength],
      ?_⟩
    rw [List.flatMap_cons, encodeLine, ← hline, List.append_assoc, ← hrest, List.take_append_drop]

/-- The length field bounds the code that images can hold: if a length does not fit, the field is
cut, and what the payload holds beyond it is refused.

**Proof sketch.** The reader takes `2 ^ 32 - 1` bytes of code and so many lines from what follows,
be it code or lines. Each further code byte leaves five bytes. -/
theorem decode_encode_of_oversized {c : Chunk} (hc : c.WellFormed) (hsize : 2 ^ 32 ≤ c.code.size) :
    decode (encode c) = .error (.format .trailingBytes) := by
  have hpool : c.constants.size ≤ Chunk.maxConstants := hc.size_constants
  have hpool' : c.constants.size < 256 ^ 4 := Nat.lt_of_le_of_lt hpool (by decide)
  -- kept as a variable, so that nothing counts down from it
  obtain ⟨cut, hcut⟩ : ∃ cut, cut = 2 ^ 32 - 1 := ⟨_, rfl⟩
  have hfield : encodeLength c.code.size = LittleEndian.encode 4 cut := by
    rw [encodeLength, hcut, Nat.min_eq_right (by omega)]
  obtain ⟨tail, htail⟩ : ∃ tail, tail = c.code.toList ++ c.lines.toList.flatMap encodeLine :=
    ⟨_, rfl⟩
  have hlength : tail.length = 5 * c.code.size := by
    rw [htail, List.length_append, length_flatMap_encodeLine, Array.length_toList,
      Array.length_toList, hc.size_lines]
    omega
  have hpayload : payload c = mark ++ (LittleEndian.encode 2 version ++
      (LittleEndian.encode 4 c.constants.size ++ (c.constants.toList.flatMap encodeConstant ++
        (LittleEndian.encode 4 cut ++ tail)))) := by
    simp only [payload, encodeLength_of_lt hpool', hfield, htail, List.append_assoc]
  have hlong : 4 * cut ≤ (tail.drop cut).length := by
    rw [List.length_drop]
    omega
  obtain ⟨lines, rest, hlines, hrest⟩ := exists_lines hlong
  have hsplit : tail = tail.take cut ++ (lines.toArray.toList.flatMap encodeLine ++ rest) := by
    rw [← hrest, List.take_append_drop]
  have hfinished : finished rest = .error .trailingBytes := by
    cases rest with
    | nil =>
      have := congrArg List.length hrest
      rw [List.length_drop, List.append_nil, length_flatMap_encodeLine] at this
      omega
    | cons byte rest => rfl
  have hread : chunk (payload c) = .error .trailingBytes := by
    rw [hpayload]
    simp only [chunk, (reads_bytes mark.length).bind_append rfl, ↓reduceIte,
      (reads_number 2).bind_append (show version < 256 ^ 2 by decide),
      (reads_number 4).bind_append hpool', if_neg (Nat.not_lt_of_le hpool),
      (reads_many reads_constant _).bind_append rfl,
      (reads_number 4).bind_append (show cut < 256 ^ 4 by omega)]
    rw [hsplit, (reads_bytes cut).bind_append (by rw [List.length_take]; omega),
      (reads_many reads_line cut).bind_append (by rw [List.size_toArray, hlines])]
    change (finished rest >>= fun _ => _) = _
    rw [hfinished]
    rfl
  rw [encode_eq, decode_append (length_payload_ge c) (LittleEndian.length_encode _ _), if_pos rfl,
    hread]

end Image

end ChunkMachine
