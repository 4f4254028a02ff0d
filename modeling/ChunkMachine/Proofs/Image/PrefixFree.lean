import ChunkMachine.Proofs.Image.Burst

set_option relaxedAutoImplicit false
set_option autoImplicit false

/-!
# Images end where they say

Whatever a reader of the image format takes, it knows from what it has taken where to stop: the
written form of an item is never the beginning of that of another one. This holds of numbers and
single bytes, whose length is fixed, of the constants and lines that a length field announces, and
so of whole payloads. An accepted image can therefore neither be cut short nor continued, not even
if the bytes that come about end in a checksum that fits.

## Main results

* `Image.Reads.append_inj` — what a reader takes is told by the bytes, and so is what follows.
* `Image.payload_append_inj` — so are payloads.
* `Image.decode_prefix_free` — no accepted image is the beginning of another one.
-/

namespace ChunkMachine.Image

/-- **What a reader takes is told by the bytes**, and so is what follows: they begin with the
written form of one admissible item only. A reader is a function, so it cannot take two items from
the same bytes. -/
theorem Reads.append_inj {α : Type} {item : Reader α} {write : α → List UInt8}
    {admissible : α → Prop} (h : Reads item write admissible) {a b : α} {rest rest' : List UInt8}
    (ha : admissible a) (hb : admissible b) (heq : write a ++ rest = write b ++ rest') :
    a = b ∧ rest = rest' := by
  have hread : item (write b ++ rest') = .ok (a, rest) := (h _ a rest).2 ⟨ha, heq.symm⟩
  have hread' : item (write b ++ rest') = .ok (b, rest') := (h _ b rest').2 ⟨hb, rfl⟩
  rw [hread] at hread'
  exact Prod.mk.inj (Except.ok.inj hread')

/-- The sections of a payload, one behind the other. The two lengths are written uncut, since the
pool is small and the code is not too long. -/
theorem payload_sections {c : Chunk} (hc : c.WellFormed) (hcode : c.code.size < 2 ^ 32) :
    payload c = mark ++ LittleEndian.encode 2 version ++
      LittleEndian.encode 4 c.constants.size ++ c.constants.toList.flatMap encodeConstant ++
      LittleEndian.encode 4 c.code.size ++ c.code.toList ++ c.lines.toList.flatMap encodeLine := by
  have hpool : c.constants.size < 2 ^ 32 := Nat.lt_of_le_of_lt hc.size_constants (by decide)
  rw [payload, encodeLength_of_lt hpool, encodeLength_of_lt hcode]

/-- **A payload is told by the bytes that begin with it**, and so is what follows.

**Proof sketch.** The number of constants is read first, so both payloads have the same number of
them, and then the same constants. Behind these both have the length of the code, which is also the
number of lines. -/
theorem payload_append_inj {c d : Chunk} (hc : c.WellFormed) (hd : d.WellFormed)
    (hccode : c.code.size < 2 ^ 32) (hdcode : d.code.size < 2 ^ 32) {rest rest' : List UInt8}
    (h : payload c ++ rest = payload d ++ rest') : c = d ∧ rest = rest' := by
  have hfits {e : Chunk} (he : e.WellFormed) : e.constants.size < 256 ^ 4 :=
    Nat.lt_of_le_of_lt he.size_constants (by decide)
  -- mark and version are the same in all payloads
  simp only [payload_sections hc hccode, payload_sections hd hdcode, List.append_assoc,
    List.append_cancel_left_eq] at h
  obtain ⟨hpool, h⟩ := (reads_number 4).append_inj (hfits hc) (hfits hd) h
  obtain ⟨hconstants, h⟩ := (reads_many reads_constant d.constants.size).append_inj
    (a := c.constants) (b := d.constants) hpool rfl h
  obtain ⟨hsize, h⟩ := (reads_number 4).append_inj hccode hdcode h
  obtain ⟨hcode, h⟩ := (reads_bytes d.code.size).append_inj
    (a := c.code.toList) (b := d.code.toList) hsize rfl h
  obtain ⟨hlines, h⟩ := (reads_many reads_line d.code.size).append_inj
    (a := c.lines) (b := d.lines) (hc.size_lines.trans hsize) hd.size_lines h
  refine ⟨?_, h⟩
  cases c
  cases d
  rw [Chunk.mk.injEq]
  exact ⟨Array.toList_inj.1 hcode, hlines, hconstants⟩

/-- Nothing can stand behind an image such that all of it is an image. Both would have the same
payload, and behind a payload stand four bytes. -/
theorem eq_nil_of_decode_append {image extra : List UInt8} {c d : Chunk}
    (hc : decode image = .ok c) (hd : decode (image ++ extra) = .ok d) : extra = [] := by
  obtain ⟨hwc, hccode, rfl⟩ := decode_eq_ok_iff.1 hc
  obtain ⟨hwd, hdcode, himage⟩ := decode_eq_ok_iff.1 hd
  rw [encode_eq, encode_eq, List.append_assoc] at himage
  obtain ⟨rfl, htrailer⟩ := payload_append_inj hwc hwd hccode hdcode himage
  -- both end in the checksum of one payload
  exact List.append_right_eq_self.1 htrailer

/-- **Images are prefix-free**: of two byte strings one of which is a proper beginning of the other,
at most one is accepted. So an accepted image is refused when it is cut short anywhere, and when
anything is put behind it, whatever checksum the bytes end in.

**Proof sketch.** Accepted bytes are images of chunks. By `payload_append_inj` two images one of
which begins with the other have the same payload, and then the same checksum behind it. -/
theorem decode_prefix_free :
    (∀ image extra : List UInt8, extra ≠ [] →
      ¬ ((∃ c, decode image = .ok c) ∧ ∃ d, decode (image ++ extra) = .ok d)) ∧
    ∀ (image : List UInt8) (c : Chunk), decode image = .ok c →
      (∀ n < image.length, ∃ e, decode (image.take n) = .error e) ∧
      ∀ extra : List UInt8, extra ≠ [] → ∃ e, decode (image ++ extra) = .error e := by
  refine ⟨fun image extra hextra => ?_, fun image c hc => ⟨fun n hn => ?_, fun extra hextra => ?_⟩⟩
  · rintro ⟨⟨c, hc⟩, d, hd⟩
    exact hextra (eq_nil_of_decode_append hc hd)
  · cases hcut : decode (image.take n) with
    | error e => exact ⟨e, rfl⟩
    | ok d =>
      rw [← List.take_append_drop n image] at hc
      have hdrop := List.drop_eq_nil_iff.1 (eq_nil_of_decode_append hcut hc)
      omega
  · cases hlong : decode (image ++ extra) with
    | error e => exact ⟨e, rfl⟩
    | ok d => exact absurd (eq_nil_of_decode_append hc hlong) hextra

/-- The image of the empty chunk, sealed once more: the four bytes behind it are the checksum of all
that stands before them, and the whole is refused all the same. So it is the layout that keeps
images from beginning one another, and not the checksum. -/
theorem decode_prefix_free_sealed_twice :
    let image := encode .empty
    let extra := LittleEndian.encode 4 (Checksum.crc32 image).toNat
    decode image = .ok .empty ∧ extra ≠ [] ∧ Sealed (image ++ extra) ∧
      ∃ e, decode (image ++ extra) = .error e := by
  intro image extra
  have hdecode : decode image = .ok .empty := decode_eq_ok_iff.2 ⟨.empty, by decide, rfl⟩
  have hextra : extra ≠ [] := List.cons_ne_nil _ _
  have hsealed : Sealed (image ++ extra) := by unfold Sealed; decide +kernel
  exact ⟨hdecode, hextra, hsealed, (decode_prefix_free.2 image .empty hdecode).2 extra hextra⟩

end ChunkMachine.Image
