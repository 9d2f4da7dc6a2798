import StackLang.Text.Utf8

/-!
# The characters of a document

A document is bytes in UTF-8 or, after a byte order mark that says so, in UTF-16. They are read in
portions, and a portion with a malformed or forbidden character counts as a whole: nothing of it can
be read, and what stands before it can. So a fault behind the part that is looked at does no harm.

- `Source.ofText`: the characters of a text, portion by portion.
- `Source.need`: reads on until enough characters are at hand.
-/

set_option autoImplicit false

namespace StackLang.Yaml

/-- How bytes spell characters. -/
inductive Encoding where
  | utf8
  | utf16 (bigEndian : Bool)
  deriving DecidableEq, Repr

/-- What stands at the start of some bytes. -/
inductive Start where
  | char (c : Char) (rest : Text)
  /-- The bytes end within a character. -/
  | cut
  | faulty
  deriving DecidableEq, Repr

/-- The byte order mark. -/
def orderMark : Char := Char.ofNat 0xFEFF

/-- Whether a character may occur in a document. -/
def isAllowed (c : Char) : Bool :=
  let n := c.toNat
  n = 0x09 || n = 0x0A || n = 0x0D || (0x20 ≤ n && n ≤ 0x7E) || n = 0x85 || (0xA0 ≤ n && n ≤ 0xFFFD)
    || 0x10000 ≤ n

/-- A code point and what follows it, if a document may hold it. -/
def Start.ofCode (n : Nat) (rest : Text) : Start :=
  if n.isValidChar ∧ isAllowed (Char.ofNat n) then .char (Char.ofNat n) rest else .faulty

/-- The number of bytes after a first one, the bits that the first one gives, and the least code
point that takes so many bytes. -/
def utf8Shape? (b : UInt8) : Option (Nat × Nat × Nat) :=
  let n := b.toNat
  if n < 0x80 then some (0, n, 0)
  else if 0xC0 ≤ n ∧ n < 0xE0 then some (1, n % 0x20, 0x80)
  else if 0xE0 ≤ n ∧ n < 0xF0 then some (2, n % 0x10, 0x800)
  else if 0xF0 ≤ n ∧ n < 0xF8 then some (3, n % 0x08, 0x10000)
  else none

/-- Whether a byte continues a character. -/
def continues (b : UInt8) : Bool := 0x80 ≤ b.toNat && b.toNat < 0xC0

/-- The first character in UTF-8. -/
def utf8Start : Text → Start
  | [] => .cut
  | b :: t =>
    match utf8Shape? b with
    | none => .faulty
    | some (count, high, least) =>
      if t.length < count then .cut
      else if ¬ (t.take count).all continues then .faulty
      else
        let n := (t.take count).foldl (fun n b => n * 0x40 + b.toNat % 0x40) high
        if n < least then .faulty else .ofCode n (t.drop count)

/-- A unit of two bytes. -/
def unit (bigEndian : Bool) (a b : UInt8) : Nat :=
  if bigEndian then a.toNat * 0x100 + b.toNat else b.toNat * 0x100 + a.toNat

/-- The first character in UTF-16. -/
def utf16Start (bigEndian : Bool) : Text → Start
  | a :: b :: t =>
    let n := unit bigEndian a b
    if 0xDC00 ≤ n ∧ n ≤ 0xDFFF then .faulty
    else if 0xD800 ≤ n ∧ n ≤ 0xDBFF then
      match t with
      | c :: d :: t =>
        let low := unit bigEndian c d
        if 0xDC00 ≤ low ∧ low ≤ 0xDFFF then
          .ofCode (0x10000 + (n - 0xD800) * 0x400 + (low - 0xDC00)) t
        else .faulty
      | _ => .cut
    else .ofCode n t
  | _ => .cut

/-- The first character of some bytes. -/
def Encoding.start : Encoding → Text → Start
  | utf8 => utf8Start
  | utf16 bigEndian => utf16Start bigEndian

/-- The encoding of a text, and the text without its byte order mark. -/
def Encoding.detect : Text → Encoding × Text
  | 0xFF :: 0xFE :: t => (.utf16 false, t)
  | 0xFE :: 0xFF :: t => (.utf16 true, t)
  | 0xEF :: 0xBB :: 0xBF :: t => (.utf8, t)
  | t => (.utf8, t)

/-! ## Portions -/

/-- The number of bytes of a portion. -/
def portionSize : Nat := 512

/-- The characters of a portion, and the bytes at its end that are only part of one; none when a
character is faulty. Each step takes a character, so `steps` need not exceed the number of bytes. -/
def portion? (e : Encoding) : (steps : Nat) → Text → Option (List Char × Text)
  | 0, t => some ([], t)
  | steps + 1, t =>
    match e.start t with
    | .char c rest => (portion? e steps rest).map fun p => (c :: p.1, p.2)
    | .cut => some ([], t)
    | .faulty => none

/-- Characters at hand and to come. -/
structure Source where
  /-- What is at hand. After the end of the text stands `endMark`. -/
  ahead : List Char := []
  /-- The portions to come. -/
  later : List (List Char) := []
  /-- Whether the text ends after them; otherwise a faulty portion follows. -/
  sound : Bool := true
  /-- Whether what was at hand when a portion was last asked for starts with a byte order mark. -/
  marked : Bool := false
  deriving DecidableEq, Repr

namespace Source

/-- What stands for the end of the text; no document holds this character. -/
def endMark : Char := Char.ofNat 0

/-- The portions of some bytes, the first of them with `size` bytes, and whether they are all
sound. -/
def portions (e : Encoding) : (steps size : Nat) → Text → List (List Char) × Bool
  | 0, _, _ => ([], true)
  | steps + 1, size, t =>
    match portion? e (t.take size).length (t.take size) with
    | none => ([], false)
    | some (cs, rest) =>
      if t.length ≤ size then ([cs], rest.isEmpty)
      else
        let (later, sound) := portions e steps portionSize (rest ++ t.drop size)
        (cs :: later, sound)

/-- The characters of a text. -/
def ofText (t : Text) : Source :=
  let (e, body) := Encoding.detect t
  if body.isEmpty then {}
  else
    let (later, sound) := portions e (t.length + 1) (portionSize - (t.length - body.length)) body
    { later, sound }

/-- The number of characters. -/
def size (s : Source) : Nat := s.ahead.length + s.later.foldl (fun n p => n + p.length) 0

/-- Takes portions to `ahead` until it has `n` characters. At the end of the text one `endMark` is
added. -/
def fill (n : Nat) (sound : Bool) (ahead : List Char) :
    List (List Char) → Option (List Char × List (List Char))
  | [] =>
    if n ≤ ahead.length then some (ahead, [])
    else if sound then some (ahead ++ [endMark], [])
    else none
  | p :: later =>
    if n ≤ ahead.length then some (ahead, p :: later) else fill n sound (ahead ++ p) later

/-- Sees to it that `n` characters are at hand, or all that are left; none when a faulty portion
would have to be read. -/
def need (n : Nat) (s : Source) : Option Source :=
  if (s.ahead.drop (n - 1)).isEmpty then
    (fill n s.sound s.ahead s.later).map fun (ahead, later) =>
      { s with ahead, later, marked := ahead.head? = some orderMark }
  else some s

/-- The character at a distance. -/
def get (s : Source) (k : Nat) : Char := s.ahead.getD k endMark

/-- What is left after `k` characters. -/
def drop (s : Source) (k : Nat) : Source := { s with ahead := s.ahead.drop k }

end Source

end StackLang.Yaml
