import StackLang.Assembly.Data
import StackLang.Assembly.Fault
import StackLang.Assembly.Identifier
import StackLang.Assembly.Instruction

/-!
# Assembly files

An assembly file in the making. Each section has lines of its own, so data that is found while code
is written goes to its section without touching what is there. The sections are joined at the end,
in their fixed order.

- `Artifact.declareString`, `declareCString`, `declareArray`, `reserve`: data under new symbols. A
  refused declaration is reported beside the artifact that it leaves.
- `Artifact.length_render`: the size of an artifact is the length of its text.
- `Artifact.writeTo`: writes the text piece by piece, to a writer that may fail.
-/

set_option autoImplicit false

namespace StackLang.Assembly

/-- A line of constant data. -/
inductive DataLine where
  | bytes (sym data : Text)
  /-- The addresses of symbols and a final zero. -/
  | pointers (sym : Text) (targets : List Text)
  deriving DecidableEq, Repr

/-- How a line of data is written. -/
def DataLine.render : DataLine → Text
  | bytes sym data => sym ++ ": db " ++ formatBytes data ++ "\n"
  | pointers sym targets => sym ++ ": dq " ++ Text.join ", " (targets ++ [("0" : Text)]) ++ "\n"

/-- A line that reserves memory. -/
structure Reservation where
  sym : Text
  size : Int
  deriving DecidableEq, Repr

/-- How a reservation is written. -/
def Reservation.render (r : Reservation) : Text := r.sym ++ ": resb " ++ Text.ofInt r.size ++ "\n"

/-- A line of code. -/
inductive Line where
  | label (name : Text)
  | instruction (i : Instruction)
  /-- An instruction given as it is to be written. -/
  | verbatim (text : Text)
  | comment (text : Text)
  /-- Makes a symbol visible outside the file. -/
  | exported (sym : Text)
  | blank
  deriving DecidableEq, Repr

/-- How a line of code is written. -/
def Line.render : Line → Text
  | label name => name ++ ":\n"
  | instruction i => "    " ++ i.render ++ "\n"
  | verbatim text => "    " ++ text ++ "\n"
  | comment text => "    ; " ++ text ++ "\n"
  | exported sym => "global " ++ sym ++ "\n"
  | blank => "\n"

/-- An assembly file in the making. -/
structure Artifact where
  rodata : Array DataLine := #[]
  bss : Array Reservation := #[]
  code : Array Line := #[]
  /-- The declared symbols with their sections, in order. -/
  symbols : Array (Text × Section) := #[]
  deriving Repr

namespace Artifact

/-- The artifact without lines. -/
def empty : Artifact := {}

/-! ## Declarations -/

/-- The section in which a symbol is declared. -/
def sectionOf? (a : Artifact) (sym : Text) : Option Section :=
  (a.symbols.find? (·.1 = sym)).map (·.2)

/-- Enters a new symbol. -/
def declare (a : Artifact) (sym : Text) (s : Section) : Except DeclareFault Artifact :=
  if !sym.isIdentifier then .error (.invalidName sym)
  else
    match a.sectionOf? sym with
    | some home => .error (.alreadyDeclared sym home)
    | none => .ok { a with symbols := a.symbols.push (sym, s) }

/-- What a declaration comes to: the artifact after it, and why it was refused if it was. -/
abbrev Declared := Artifact × Option DeclareFault

/-- Adds a line of bytes under a new symbol. -/
def declareBytes (a : Artifact) (sym data : Text) : Declared :=
  match a.declare sym .rodata with
  | .error fault => (a, some fault)
  | .ok a => ({ a with rodata := a.rodata.push (.bytes sym data) }, none)

/-- Adds bytes without a terminator. -/
def declareString (a : Artifact) (sym data : Text) : Declared := a.declareBytes sym data

/-- Adds bytes followed by a zero. -/
def declareCString (a : Artifact) (sym data : Text) : Declared := a.declareBytes sym (data ++ [0])

/-- The symbol of an element of an array. -/
def elementName (sym : Text) (i : Nat) : Text := sym ++ "_" ++ Text.ofNat i

/-- Adds the elements of an array, the first of which is number `i`. -/
def declareElements (a : Artifact) (sym : Text) (i : Nat) : List Text → Declared
  | [] => (a, none)
  | e :: es =>
    match a.declareCString (elementName sym i) e with
    | (a, some fault) => (a, some fault)
    | (a, none) => a.declareElements sym (i + 1) es

/-- Adds a table of pointers to its elements, which end with a zero each. An element that is refused
leaves the ones before it declared. -/
def declareArray (a : Artifact) (sym : Text) (elements : List Text) : Declared :=
  match a.declare sym .rodata with
  | .error fault => (a, some fault)
  | .ok a =>
    match a.declareElements sym 0 elements with
    | (a, some fault) => (a, some fault)
    | (a, none) =>
      let targets := (List.range elements.length).map (elementName sym)
      ({ a with rodata := a.rodata.push (.pointers sym targets) }, none)

/-- Reserves memory under a new symbol. -/
def reserve (a : Artifact) (sym : Text) (size : Int) : Declared :=
  if size ≤ 0 then (a, some (.badSize sym size))
  else
    match a.declare sym .bss with
    | .error fault => (a, some fault)
    | .ok a => ({ a with bss := a.bss.push ⟨sym, size⟩ }, none)

/-! ## Code -/

/-- Adds a line of code. -/
def line (a : Artifact) (l : Line) : Artifact := { a with code := a.code.push l }

/-- Adds lines of code. -/
def lines (a : Artifact) (ls : List Line) : Artifact := { a with code := a.code ++ ls }

/-! ## Text -/

/-- The lines of a section as text. -/
def body (a : Artifact) : Section → Text
  | .rodata => a.rodata.toList.flatMap DataLine.render
  | .bss => a.bss.toList.flatMap Reservation.render
  | .text => a.code.toList.flatMap Line.render
  | .unassigned _ => []

/-- The line that opens a section. -/
def header (s : Section) : Text := "section " ++ s.name ++ "\n"

/-- The texts that make up the file, in order. -/
def chunks (a : Artifact) : List Text := Section.all.flatMap fun s => [header s, a.body s]

/-- The text of the file. -/
def render (a : Artifact) : Text := a.chunks.flatten

/-- The number of bytes of the file. -/
def size (a : Artifact) : Nat :=
  (Section.all.map fun s =>
    ("section " : Text).length + s.name.length + 1 + (a.body s).length).foldr (· + ·) 0

theorem length_header (s : Section) :
    (header s).length = ("section " : Text).length + s.name.length + 1 := by
  rw [header, List.length_append, List.length_append]
  rfl

theorem length_render (a : Artifact) : a.render.length = a.size := by
  simp [render, chunks, size, Section.all, length_header, Nat.add_assoc]

/-- The names of the declared symbols in order. -/
def symbolNames (a : Artifact) : List Text := a.symbols.toList.map (·.1)

/-! ## Writing -/

/-- What a write comes to: the writer after it, the number of bytes taken, and whether it failed. -/
structure Taken (σ : Type) where
  writer : σ
  count : Nat
  failed : Bool

/-- Hands texts one by one to a writer, up to the first write that fails. The bytes that are taken, also
by that one, are added to `total`. -/
def writeChunks {σ : Type} (write : σ → Text → Taken σ) (w : σ) (total : Nat) :
    List Text → Taken σ
  | [] => ⟨w, total, false⟩
  | c :: cs =>
    let r := write w c
    if r.failed then ⟨r.writer, total + r.count, true⟩
    else writeChunks write r.writer (total + r.count) cs

/-- Writes the file to a writer. -/
def writeTo {σ : Type} (a : Artifact) (write : σ → Text → Taken σ) (w : σ) : Taken σ :=
  writeChunks write w 0 a.chunks

/-- A writer that has room for a number of bytes. -/
structure Bounded where
  room : Nat
  taken : Text := []
  deriving DecidableEq, Repr

/-- Takes what there is room for, and fails when that is not all. -/
def Bounded.write (w : Bounded) (t : Text) : Taken Bounded :=
  ⟨⟨w.room - t.length, w.taken ++ t.take w.room⟩, min t.length w.room, w.room < t.length⟩

end Artifact

end StackLang.Assembly
