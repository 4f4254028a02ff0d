import ChunkMachine.Checksum
import ChunkMachine.Chunk.Defect
import ChunkMachine.LittleEndian
import ChunkMachine.Text.Column

set_option relaxedAutoImplicit false
set_option autoImplicit false

/-!
# Images of chunks

The binary form in which chunks are stored: a mark, a format version, the constants, the code, the
line of every code byte, and a CRC-32 of all that. Numbers are little-endian. No padding and no
choice is left, so a chunk has one image.

## Main definitions

* `Image.encode` — the image of a chunk.
* `Image.decode` — the chunk of an image.
* `Image.load` — the chunk of an image, if it has no defect.
-/

namespace ChunkMachine.Image

/-- The bytes that start every image. Nothing else is looked at until they are found in front. -/
def mark : List UInt8 := "LOXC".toUTF8.toList

/-- The version of the format. An image of any other version is refused. -/
def version : Nat := 1

/-- The byte that announces a binary64 constant. It is the only kind of constant that there is, and
any other tag is refused. -/
def numberTag : UInt8 := 3

/-- A length in four bytes; one that does not fit is cut to the greatest that does. -/
def encodeLength (n : Nat) : List UInt8 := LittleEndian.encode 4 (min n (2 ^ 32 - 1))

/-- A constant: its tag and its bits, the lowest byte first. The bits are kept as they are, so that
zeros and NaNs are told apart. -/
def encodeConstant (v : Value) : List UInt8 := numberTag :: LittleEndian.encode 8 v.bits.toNat

/-- The line of a code byte, in four bytes. -/
def encodeLine (line : UInt32) : List UInt8 := LittleEndian.encode 4 line.toNat

/-- All of an image but its checksum: the mark, the version, the constants behind their number, the
code bytes behind theirs, and the line of each of them. The lines need no number of their own, as
there are as many as code bytes. -/
def payload (c : Chunk) : List UInt8 :=
  mark ++ LittleEndian.encode 2 version ++
    encodeLength c.constants.size ++ c.constants.toList.flatMap encodeConstant ++
    encodeLength c.code.size ++ c.code.toList ++ c.lines.toList.flatMap encodeLine

/-- The image of a chunk: its payload, and the checksum of that. -/
def encode (c : Chunk) : List UInt8 :=
  let bytes := payload c
  bytes ++ LittleEndian.encode 4 (Checksum.crc32 bytes).toNat

/-! ## Errors -/

/-- Why the layout of an image is refused. That its checksum is wrong is no fault of its layout, and
is found before. -/
inductive Fault where
  /-- There are fewer bytes than the shortest image has. -/
  | tooShort
  /-- The image does not start with the mark. -/
  | badMark
  /-- It is of another version. -/
  | unsupportedVersion
  /-- It announces more constants than a pool holds. -/
  | tooManyConstants
  /-- It ends where a single byte is due. -/
  | missingByte
  /-- It ends where several bytes are due. -/
  | missingBytes
  /-- A constant is of no known kind. -/
  | unknownTag
  /-- There is something left behind the lines. -/
  | trailingBytes
  deriving DecidableEq, Repr

/-- Why bytes are refused as an image. -/
inductive Error where
  /-- The bytes are not laid out as an image. -/
  | format (fault : Fault)
  /-- The checksum of the payload is `expected`, but the image says `found`. -/
  | checksum (expected found : UInt32)
  deriving DecidableEq, Repr

/-- The text of a layout fault. All of them follow the same heading. -/
def Fault.message : Fault → String
  | tooShort => "too short"
  | badMark => "bad magic"
  | unsupportedVersion => "unsupported version"
  | tooManyConstants => "too many constants"
  | missingByte => "u8 eof"
  | missingBytes => "slice eof"
  | unknownTag => "unknown const tag"
  | trailingBytes => "trailing bytes"

/-- The text of a refusal. For a checksum both words are shown, the one that was computed and the
one that was found. -/
def Error.message : Error → String
  | format fault => "format error: " ++ fault.message
  | checksum expected found =>
    s!"hash mismatch (crc32): expected=0x{Text.hexadecimal expected}, " ++
      s!"found=0x{Text.hexadecimal found}"

/-! ## Reading -/

/-- A reader takes bytes from the front of what is left, or refuses. -/
abbrev Reader (α : Type) := StateT (List UInt8) (Except Fault) α

/-- Takes exactly `n` bytes, or refuses if there are not as many. -/
def bytes (n : Nat) : Reader (List UInt8) := fun rest =>
  let taken := rest.take n
  if taken.length = n then .ok (taken, rest.drop n) else .error .missingBytes

/-- Takes one byte. If there is none this is another fault than if several are missing. -/
def byte : Reader UInt8
  | [] => .error .missingByte
  | b :: rest => .ok (b, rest)

/-- Takes a number of `width` bytes, the lowest first. -/
def number (width : Nat) : Reader Nat := do return LittleEndian.decode (← bytes width)

/-- Takes a constant: first its tag, which decides, and then its bits. -/
def constant : Reader Value := do
  if (← byte) = numberTag then return ⟨UInt64.ofNat (← number 8)⟩ else throw .unknownTag

/-- Takes the line of a code byte. Every word of four bytes is a line. -/
def line : Reader UInt32 := do return UInt32.ofNat (← number 4)

/-- Takes `n` items, one after another, behind those in `taken`. The first one that is refused
refuses them all. -/
def many {α : Type} (item : Reader α) : Nat → Array α → Reader (Array α)
  | 0, taken => pure taken
  | n + 1, taken => do many item n (taken.push (← item))

/-- Succeeds if nothing is left. This comes last, when everything in front was found in order. -/
def finished : Reader Unit
  | [] => .ok ((), [])
  | _ => .error .trailingBytes

/-- Takes a whole payload, field by field and in the order in which they are written. The number of
constants is checked before any of them is read; of code bytes there is no limit but what is
there. -/
def chunk : Reader Chunk := do
  unless (← bytes mark.length) = mark do throw .badMark
  unless (← number 2) = version do throw .unsupportedVersion
  let poolSize ← number 4
  if Chunk.maxConstants < poolSize then throw .tooManyConstants
  let constants ← many constant poolSize #[]
  let codeSize ← number 4
  let code ← bytes codeSize
  let lines ← many line codeSize #[]
  finished
  return ⟨code.toArray, lines, constants⟩

/-- The length of the shortest image, that of the empty chunk: mark, version, two numbers and the
checksum. -/
def minLength : Nat := 18

/-- The chunk of an image. The checksum is verified before anything of the payload is read. -/
def decode (image : List UInt8) : Except Error Chunk :=
  if image.length < minLength then .error (.format .tooShort)
  else
    let body := image.take (image.length - 4)
    let found := UInt32.ofNat (LittleEndian.decode (image.drop (image.length - 4)))
    let expected := Checksum.crc32 body
    if expected ≠ found then .error (.checksum expected found)
    else
      match chunk body with
      | .ok (c, _) => .ok c
      | .error fault => .error (.format fault)

/-! ## Loading -/

/-- Why an image is not run. -/
inductive LoadError where
  /-- It cannot be decoded. -/
  | undecodable (error : Error)
  /-- It decodes to a chunk that has a defect. -/
  | defective (defect : Defect)
  deriving DecidableEq, Repr

/-- The text of a refusal to load, which is that of the error or of the defect itself. -/
def LoadError.message : LoadError → String
  | undecodable error => error.message
  | defective defect => defect.message

/-- The chunk of an image that can be run: it decodes, and it has no defect. Decoding alone does not
look at what the code bytes say. -/
def load (image : List UInt8) : Except LoadError Chunk :=
  match decode image with
  | .error e => .error (.undecodable e)
  | .ok c =>
    match c.defect? with
    | some d => .error (.defective d)
    | none => .ok c

end ChunkMachine.Image
