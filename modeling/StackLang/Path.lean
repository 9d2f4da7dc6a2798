import StackLang.Text.Basic

/-!
# Paths

Paths are texts with parts between slashes. The functions here are lexical: they never look at a
file tree. `Path.clean` gives the shortest equivalent path, and the others are defined through it.

- `Path.normal_append`: normalising goes part by part.
-/

set_option autoImplicit false

namespace StackLang.Path

/-- The byte between parts. -/
def separator : UInt8 := Text.byte '/'

/-- Whether a path starts at the root. -/
def isAbsolute (t : Text) : Bool := t.head? = some separator

/-- Takes one more part into a normal path, given last part first. -/
def normalStep (rooted : Bool) (parts : List Text) (part : Text) : List Text :=
  if part = [] ∨ part = "." then parts
  else if part = ".." then
    match parts with
    | [] => if rooted then [] else [part]
    | last :: rest => if last = ".." then part :: parts else rest
  else part :: parts

/-- The parts of a path without empty ones, dots, and parts that a `..` cancels. -/
def normal (rooted : Bool) (parts : List Text) : List Text :=
  (parts.foldl (normalStep rooted) []).reverse

theorem normal_append (rooted : Bool) (ps qs : List Text) :
    normal rooted (ps ++ qs)
      = (qs.foldl (normalStep rooted) (ps.foldl (normalStep rooted) [])).reverse := by
  simp [normal]

/-- The normal parts of a path. -/
def parts (t : Text) : List Text := normal (isAbsolute t) (Text.split separator t)

/-- The path with the given parts. -/
def ofParts (rooted : Bool) (ps : List Text) : Text :=
  if rooted then "/" ++ Text.join "/" ps
  else if ps.isEmpty then "." else Text.join "/" ps

/-- The shortest path that names the same place. -/
def clean (t : Text) : Text := ofParts (isAbsolute t) (parts t)

/-- The path of `name` inside `dir`, cleaned; empty when both are. -/
def join (dir name : Text) : Text :=
  if dir = [] then (if name = [] then [] else clean name)
  else if name = [] then clean dir
  else clean (dir ++ "/" ++ name)

/-- The text up to the last slash, with it. -/
def upToSlash (t : Text) : Text := (t.reverse.dropWhile (· ≠ separator)).reverse

/-- The text after the last slash. -/
def afterSlash (t : Text) : Text := (t.reverse.takeWhile (· ≠ separator)).reverse

/-- The directory that holds a path. -/
def dir (t : Text) : Text := clean (upToSlash t)

/-- The part of the file name from its last dot on; empty when it has none. -/
def extension (t : Text) : Text :=
  let name := afterSlash t
  if name.contains (Text.byte '.') then
    Text.byte '.' :: (name.reverse.takeWhile (· ≠ Text.byte '.')).reverse
  else []

/-- The path from the root, where relative paths start at `cwd`. -/
def absolute (cwd t : Text) : Text := if isAbsolute t then clean t else join cwd t

/-- Both lists without the parts that they start with alike. -/
def dropCommon : List Text → List Text → List Text × List Text
  | p :: ps, q :: qs => if p = q then dropCommon ps qs else (p :: ps, q :: qs)
  | ps, qs => (ps, qs)

/-- The absolute path `target` as seen from the directory `base`; none when `base` is not
absolute. -/
def relative? (base target : Text) : Option Text :=
  if isAbsolute base ∧ isAbsolute target then
    let (up, down) := dropCommon (parts base) (parts target)
    some (ofParts false (List.replicate up.length (".." : Text) ++ down))
  else none

end StackLang.Path
