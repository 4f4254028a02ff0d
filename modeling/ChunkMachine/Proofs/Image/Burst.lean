import ChunkMachine.Proofs.Checksum.Register
import ChunkMachine.Proofs.Image.Reading

set_option relaxedAutoImplicit false
set_option autoImplicit false

/-!
# Bursts of errors in images

Images are damaged in bursts: some bytes in a row change, and all others stay. A burst of up to four
bytes never goes unnoticed, wherever it strikes, and it is noticed by the checksum before anything
of the image is read. The checksum itself may be hit as well.

## Main definitions

* `Burst` — a change of some bytes in a row.
* `Image.Sealed` — an image ends in the checksum of its other bytes.

## Main results

* `burst_iff` — a burst replaces a window by another one of the same length.
* `Image.decode_eq_checksum_error_iff` — when images are refused for their checksum.
* `Image.decode_of_burst` — an image that a burst has hit is refused for its checksum.
-/

namespace ChunkMachine

/-- What was received has the same length as what was sent and is something else, but it differs
only within `width` bytes in a row. Within these bytes any of them may be changed or be as it
was. -/
structure Burst (width : Nat) (sent received : List UInt8) : Prop where
  /-- Nothing was lost and nothing added. -/
  length_eq : received.length = sent.length
  /-- Something was changed. -/
  ne : received ≠ sent
  /-- All changes are within a window of that width. -/
  within : ∃ start, ∀ i, i < start ∨ start + width ≤ i → received[i]? = sent[i]?

/-- A burst replaces a window by another one of the same length. The window is as wide as a burst
may be, or it ends with the bytes, if these end earlier.

**Proof sketch.** Cut both byte strings at the start of the window and at its end. What is in front
and what is behind is the same by comparing it place by place. -/
theorem burst_iff {width : Nat} {sent received : List UInt8} :
    Burst width sent received ↔
      ∃ before window window' after, sent = before ++ window ++ after ∧
        received = before ++ window' ++ after ∧ window'.length = window.length ∧
        window.length ≤ width ∧ window' ≠ window := by
  constructor
  · rintro ⟨hlength, hne, start, hwithin⟩
    have hbefore : received.take start = sent.take start := by
      apply List.ext_getElem?
      intro i
      rw [List.getElem?_take, List.getElem?_take]
      split
      · exact hwithin i (.inl ‹_›)
      · rfl
    have hafter : received.drop (start + width) = sent.drop (start + width) := by
      apply List.ext_getElem?
      intro i
      rw [List.getElem?_drop, List.getElem?_drop]
      exact hwithin _ (.inr (Nat.le_add_right _ _))
    have hcut (bytes : List UInt8) : bytes =
        bytes.take start ++ (bytes.drop start).take width ++ bytes.drop (start + width) := by
      rw [List.append_assoc, ← List.drop_drop, List.take_append_drop, List.take_append_drop]
    refine ⟨sent.take start, (sent.drop start).take width, (received.drop start).take width,
      sent.drop (start + width), hcut sent, ?_, ?_, List.length_take_le _ _, fun hwindow => hne ?_⟩
    · rw [← hbefore, ← hafter]
      exact hcut received
    · rw [List.length_take, List.length_take, List.length_drop, List.length_drop, hlength]
    · rw [hcut received, hbefore, hwindow, hafter]
      exact (hcut sent).symm
  · rintro ⟨before, window, window', after, rfl, rfl, hlength, hle, hne⟩
    refine ⟨by simp [hlength], by simpa using hne, before.length, fun i hi => ?_⟩
    rw [List.append_assoc, List.append_assoc]
    rcases hi with hlt | hge
    · rw [List.getElem?_append_left hlt, List.getElem?_append_left hlt]
    · have hbefore : before.length ≤ i := by omega
      have hwindow : window.length ≤ i - before.length := by omega
      rw [List.getElem?_append_right hbefore, List.getElem?_append_right hbefore,
        List.getElem?_append_right hwindow, List.getElem?_append_right (hlength ▸ hwindow),
        hlength]

namespace Image

open Checksum (feed start residue)

/-- The last four bytes of an image are the checksum of all bytes before them. Nothing is said of
what those bytes are, so an image may be sealed and still be refused. -/
def Sealed (image : List UInt8) : Prop :=
  image.drop (image.length - 4) =
    LittleEndian.encode 4 (Checksum.crc32 (image.take (image.length - 4))).toNat

/-- An image is sealed exactly if the register behind all of it is the residue. So whether bytes are
sealed is told by one pass over all of them, the checksum included. -/
theorem sealed_iff {image : List UInt8} (h : minLength ≤ image.length) :
    Sealed image ↔ image.foldl feed start = residue := by
  obtain ⟨body, trailer, rfl, -, htrailer⟩ := exists_trailer h
  have hcut : (body ++ trailer).length - 4 = body.length := by simp [htrailer]
  rw [Sealed, hcut, List.drop_left, List.take_left,
    Checksum.foldl_feed_eq_residue_iff htrailer]

/-- What a chunk is written as is sealed, and it is long enough to be looked at. -/
theorem sealed_encode (c : Chunk) : minLength ≤ (encode c).length ∧ Sealed (encode c) := by
  have htrailer := LittleEndian.length_encode 4 (Checksum.crc32 (payload c)).toNat
  have hlength : minLength ≤ (encode c).length := by
    have hpayload := length_payload_ge c
    rw [encode_eq, List.length_append, htrailer, minLength]
    omega
  refine ⟨hlength, (sealed_iff hlength).2 ?_⟩
  exact Checksum.foldl_feed_checksum (payload c)

/-- **Images are refused for their checksum** exactly if they are long enough and not sealed.

**Proof sketch.** The checksum is compared before anything is read, so an image that is refused for
it has been cut into payload and checksum only, and a sealed one is never refused for it. -/
theorem decode_eq_checksum_error_iff {image : List UInt8} :
    (∃ expected found, expected ≠ found ∧ decode image = .error (.checksum expected found)) ↔
      minLength ≤ image.length ∧ ¬ Sealed image := by
  by_cases h : minLength ≤ image.length
  · have hsealed := sealed_iff h
    obtain ⟨body, trailer, rfl, hbody, htrailer⟩ := exists_trailer h
    rw [decode_append hbody htrailer, hsealed, Checksum.foldl_feed_eq_residue_iff htrailer]
    by_cases hright : trailer = LittleEndian.encode 4 (Checksum.crc32 body).toNat
    · rw [if_pos hright]
      refine ⟨?_, fun hnot => absurd hright hnot.2⟩
      rintro ⟨expected, found, -, herror⟩
      split at herror <;> cases herror
    · rw [if_neg hright]
      have hword := mt (eq_ofNat_decode_iff htrailer).1 hright
      exact ⟨fun _ => ⟨h, hright⟩, fun _ => ⟨_, _, hword, rfl⟩⟩
  · refine ⟨?_, fun hlong => absurd hlong.1 h⟩
    rintro ⟨expected, found, -, herror⟩
    rw [decode, if_pos (Nat.lt_of_not_le h)] at herror
    cases herror

/-- A burst of up to four bytes breaks the seal.

**Proof sketch.** The bytes before the window leave the same register. The windows make different
registers of it, since a register has room for four bytes, and the bytes behind the window keep
them apart. So at most one of the two is the residue. -/
theorem not_sealed_of_burst {sent received : List UInt8} (hlong : minLength ≤ sent.length)
    (hsealed : Sealed sent) (hburst : Burst 4 sent received) : ¬ Sealed received := by
  rw [sealed_iff hlong] at hsealed
  rw [sealed_iff (hburst.length_eq ▸ hlong), ← hsealed]
  obtain ⟨before, window, window', after, rfl, rfl, hlength, hle, hne⟩ := burst_iff.1 hburst
  intro heq
  simp only [List.foldl_append] at heq
  exact hne (Checksum.eq_of_foldl_feed_eq hlength hle (Checksum.foldl_feed_inj.1 heq))

/-- **Bursts are noticed**: bytes that end in the checksum of the others, and in particular the
image of any chunk, are refused for their checksum once a burst of up to four bytes has hit them, be
it in the payload, in the checksum, or across the boundary between the two.

**Proof sketch.** The burst breaks the seal, and long images that are not sealed are refused for
their checksum. -/
theorem decode_of_burst :
    (∀ sent received, minLength ≤ sent.length → Sealed sent → Burst 4 sent received →
      ∃ expected found, expected ≠ found ∧ decode received = .error (.checksum expected found)) ∧
    ∀ c received, Burst 4 (encode c) received →
      ∃ expected found, expected ≠ found ∧ decode received = .error (.checksum expected found) := by
  have hnoticed {sent received : List UInt8} (hlong : minLength ≤ sent.length)
      (hsealed : Sealed sent) (hburst : Burst 4 sent received) :
      ∃ expected found, expected ≠ found ∧ decode received = .error (.checksum expected found) :=
    decode_eq_checksum_error_iff.2
      ⟨hburst.length_eq ▸ hlong, not_sealed_of_burst hlong hsealed hburst⟩
  refine ⟨fun sent received hlong hsealed hburst => hnoticed hlong hsealed hburst, ?_⟩
  intro c received hburst
  obtain ⟨hlong, hsealed⟩ := sealed_encode c
  exact hnoticed hlong hsealed hburst

/-- Zeros with their checksum become bytes with the mark of images, and the image of the empty chunk
is hit across the boundary between payload and checksum: both are refused for their checksum. The
first one is not the image of any chunk before it is hit, which does not matter. -/
theorem decode_of_burst_across_boundary :
    let zeros : List UInt8 := List.replicate 10 0 ++ [199, 121, 187, 209]
    let front : List UInt8 := mark ++ [1, 0, 0, 0, 0, 0, 0, 0]
    (minLength ≤ ([0, 0, 0, 0] ++ zeros).length ∧ Sealed ([0, 0, 0, 0] ++ zeros) ∧
        Burst 4 ([0, 0, 0, 0] ++ zeros) (mark ++ zeros)) ∧
      Burst 4 (encode .empty) (front ++ [1, 2, 3, 4] ++ [21, 186]) ∧
      (∃ expected found, expected ≠ found ∧
        decode (mark ++ zeros) = .error (.checksum expected found)) ∧
      ∃ expected found, expected ≠ found ∧
        decode (front ++ [1, 2, 3, 4] ++ [21, 186]) = .error (.checksum expected found) := by
  intro zeros front
  have hlong : minLength ≤ ([0, 0, 0, 0] ++ zeros).length := by decide
  have hsealed : Sealed ([0, 0, 0, 0] ++ zeros) := by unfold Sealed; decide +kernel
  have hmark : Burst 4 ([0, 0, 0, 0] ++ zeros) (mark ++ zeros) :=
    burst_iff.2 ⟨[], [0, 0, 0, 0], mark, zeros, rfl, rfl, by decide +kernel, by decide,
      by decide +kernel⟩
  have hempty : encode .empty = front ++ [0, 0, 167, 99] ++ [21, 186] := by decide +kernel
  have hboundary : Burst 4 (encode .empty) (front ++ [1, 2, 3, 4] ++ [21, 186]) :=
    burst_iff.2 ⟨front, _, _, _, hempty, rfl, rfl, by decide, by decide⟩
  exact ⟨⟨hlong, hsealed, hmark⟩, hboundary, decode_of_burst.1 _ _ hlong hsealed hmark,
    decode_of_burst.2 .empty _ hboundary⟩

end Image

end ChunkMachine
