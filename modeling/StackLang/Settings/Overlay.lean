import StackLang.Settings.Basic
import StackLang.Text.Quoted
import StackLang.Yaml.Document
import StackLang.Yaml.Merge

/-!
# Settings from a document

A document overlays settings: what it names is set, the rest stays. A value of the wrong type and a
key that names no setting are faults, and the other keys still count; a mapping with a repeated key
sets nothing. A null leaves a setting as it is, except that it empties a list. Mappings merged into
one set what it leaves out; a merge of anything else breaks the reading off.

- `Settings.overlay`: the settings after a document, and its fault.
- `Settings.ofDocument`: the reader of settings that this gives.
-/

set_option autoImplicit false

namespace StackLang.Settings

open Yaml (Layer Meaning Node)

/-- What a value is read as. -/
inductive Target where
  | int
  | bool
  | string
  | strings
  | tool
  | settings
  deriving DecidableEq, Repr

/-- The name of a target in messages. -/
def Target.name : Target → Text
  | int => "int"
  | bool => "bool"
  | string => "string"
  | strings => "[]string"
  | tool => "config.Tool"
  | settings => "config.Config"

/-- What is wrong with one place of a document. -/
inductive TypeFault where
  /-- A value of the wrong type; a collection has no text. -/
  | mismatch (line : Nat) (tag : Text) (value : Option Text) (target : Target)
  | unknownField (line : Nat) (name : Text) (owner : Target)
  | repeatedKey (line : Nat) (name : Text) (first : Nat)
  deriving DecidableEq, Repr

namespace TypeFault

/-- A value as a message shows it: a long one is cut. -/
def shown (value : Text) : Text :=
  " \x60" ++ (if 10 < value.length then value.take 7 ++ "..." else value) ++ "\x60"

/-- The wording of a fault. -/
def message : TypeFault → Text
  | mismatch line tag value target =>
    "line " ++ Text.ofNat line ++ ": cannot unmarshal " ++ tag ++ (value.map shown).getD []
      ++ " into " ++ target.name
  | unknownField line name owner =>
    "line " ++ Text.ofNat line ++ ": field " ++ name ++ " not found in type " ++ owner.name
  | repeatedKey line name first =>
    "line " ++ Text.ofNat line ++ ": mapping key " ++ Quoted.text name
      ++ " already defined at line " ++ Text.ofNat first

end TypeFault

/-- A value after a node was read onto it. -/
structure Overlaid (α : Type) where
  value : α
  faults : List TypeFault := []
  /-- Whether the reading broke off, at a merge of something that is no mapping. -/
  broken : Bool := false
  deriving DecidableEq, Repr

namespace Overlaid

/-- Reads on after an outcome, unless that one broke off. -/
def andThen {α : Type} (first : Overlaid α) (next : α → Overlaid α) : Overlaid α :=
  if first.broken then first
  else { next first.value with faults := first.faults ++ (next first.value).faults }

end Overlaid

/-- The faults of repeated keys. -/
def repeatFaults (keys : List (Node × Node)) : List TypeFault :=
  keys.map fun k => .repeatedKey k.1.line k.1.value k.2.line

/-- The faults of a node that cannot be read as `target`. -/
def mismatch (target : Target) : Node → List TypeFault
  | .scalar line quoted value =>
    [.mismatch line (Meaning.ofScalar quoted value).tag (some value) target]
  | .sequence line _ => [.mismatch line "!!seq" none target]
  | .mapping line entries =>
    match Yaml.repeats entries with
    | [] => [.mismatch line "!!map" none target]
    | keys => repeatFaults keys

/-- Reads a node as a value; a null leaves `old`. -/
def overlayScalar {α : Type} (target : Target) (read? : Meaning → Text → Option α) (node : Node)
    (old : α) : Overlaid α :=
  match node.meaning? with
  | some .null => { value := old }
  | some m =>
    match read? m node.value with
    | some new => { value := new }
    | none => { value := old, faults := mismatch target node }
  | none => { value := old, faults := mismatch target node }

/-- A 64-bit number: a fraction is dropped, and a number below the range is the lowest one. -/
def int? : Meaning → Text → Option Int64
  | .int i, _ => if i < 0x8000000000000000 then some (Int64.ofInt i) else none
  | .float (some whole), _ =>
    if 0x8000000000000000 < whole then none
    else if -0x8000000000000000 ≤ whole ∧ whole < 0x8000000000000000 then some (Int64.ofInt whole)
    else some Int64.minValue
  | _, _ => none

/-- A truth value, also by its everyday words. -/
def bool? : Meaning → Text → Option Bool
  | .bool b, _ => some b
  | .string, t =>
    if t ∈ List.map Text.ofString ["y", "Y", "yes", "Yes", "YES", "on", "On", "ON"] then some true
    else if t ∈ List.map Text.ofString ["n", "N", "no", "No", "NO", "off", "Off", "OFF"] then
      some false
    else none
  | _, _ => none

/-- Any scalar as a text. -/
def overlayText (node : Node) (old : Text) : Overlaid Text :=
  overlayScalar .string (fun _ t => some t) node old

/-- The texts of a list; nulls and faulty items are left out. -/
def itemTexts : List Node → Overlaid (List Text)
  | [] => { value := [] }
  | node :: rest =>
    let others := itemTexts rest
    match node.meaning? with
    | some .null => others
    | some _ => { others with value := node.value :: others.value }
    | none => { others with faults := mismatch .string node ++ others.faults }

/-- A list of texts replaces the old one. -/
def overlayTexts (node : Node) (old : List Text) : Overlaid (List Text) :=
  match node with
  | .sequence _ items => itemTexts items
  | node =>
    if node.meaning? = some .null then { value := [] }
    else { value := old, faults := mismatch .strings node }

/-- Reads an entry of a mapping onto a record, where `field?` reads the value of a known key. -/
def overlayEntry {α : Type} (owner : Target) (field? : Text → Option (Node → α → Overlaid α))
    (e : Node × Node) (old : α) : Overlaid α :=
  match e.1.meaning? with
  | none => { value := old, faults := mismatch .string e.1 }
  | some .null => { value := old }
  | some _ =>
    match field? e.1.value with
    | none => { value := old, faults := [.unknownField e.1.line e.1.value owner] }
    | some read => read e.2 old

/-- Reads entries onto a record, one after the other. -/
def overlayEntries {α : Type} (owner : Target) (field? : Text → Option (Node → α → Overlaid α)) :
    List (Node × Node) → α → Overlaid α
  | [], old => { value := old }
  | e :: rest, old => (overlayEntry owner field? e old).andThen (overlayEntries owner field? rest)

/-- Reads layers onto a record, where a name counts only once; `seen` are those that no longer
do. -/
def overlayLayers {α : Type} (owner : Target) (field? : Text → Option (Node → α → Overlaid α)) :
    List Layer → List Text → α → Overlaid α
  | [], _, old => { value := old }
  | .unfit :: _, _, old => { value := old, broken := true }
  | .repeated keys :: rest, seen, old =>
    Overlaid.andThen { value := old, faults := repeatFaults keys }
      (overlayLayers owner field? rest seen)
  | .own entries :: rest, seen, old =>
    (overlayEntries owner field? (Yaml.unseen seen entries) old).andThen
      (overlayLayers owner field? rest (Yaml.names entries ++ seen))

/-- Reads a mapping onto a record, and then what is merged into it; one with a repeated key sets
nothing. -/
def overlayRecord {α : Type} (target : Target) (field? : Text → Option (Node → α → Overlaid α))
    (node : Node) (old : α) : Overlaid α :=
  match node with
  | .mapping _ entries =>
    match Yaml.layers entries with
    | .own own :: merged =>
      (overlayEntries target field? own old).andThen
        (overlayLayers target field? merged (Yaml.textNames entries))
    | faulty => overlayLayers target field? faulty [] old
  | node =>
    if node.meaning? = some .null then { value := old }
    else { value := old, faults := mismatch target node }

/-- Reads a part of a record and puts it back. -/
def within {α β : Type} (get : α → β) (set : α → β → α) (read : Node → β → Overlaid β) (node : Node)
    (old : α) : Overlaid α :=
  let part := read node (get old)
  { part with value := set old part.value }

/-- The keys of a tool. -/
def toolField? (key : Text) : Option (Node → Tool → Overlaid Tool) :=
  if key = "command" then
    some (within Tool.command (fun t c => { t with command := c }) overlayText)
  else if key = "args" then
    some (within Tool.args (fun t a => { t with args := a }) overlayTexts)
  else none

/-- Reads a tool. -/
def overlayTool (node : Node) (old : Tool) : Overlaid Tool :=
  overlayRecord .tool toolField? node old

/-- The keys of the settings. -/
def settingsField? (key : Text) : Option (Node → Settings → Overlaid Settings) :=
  if key = "assembler" then
    some (within Settings.assembler (fun s t => { s with assembler := t }) overlayTool)
  else if key = "linker" then
    some (within Settings.linker (fun s t => { s with linker := t }) overlayTool)
  else if key = "input_buffer_size" then
    some (within Settings.inputBufferSize (fun s n => { s with inputBufferSize := n })
      (overlayScalar .int int?))
  else if key = "keep_asm" then
    some (within Settings.keepAsm (fun s b => { s with keepAsm := b }) (overlayScalar .bool bool?))
  else if key = "output" then
    some (within Settings.output (fun s t => { s with output := t }) overlayText)
  else none

/-- Why a document does not count. -/
inductive DocumentFault where
  | malformed
  /-- What stands at a merge is no mapping and no sequence of mappings. -/
  | unfitMerge
  | mistyped (faults : List TypeFault)
  deriving DecidableEq, Repr

/-- The wording of a fault. -/
def DocumentFault.message : DocumentFault → Text
  | malformed => "yaml: malformed document"
  | unfitMerge => "yaml: map merge requires map or sequence of maps as the value"
  | mistyped faults =>
    "yaml: unmarshal errors:\n  " ++ Text.join "\n  " (faults.map TypeFault.message)

/-- The settings after a document with a root. -/
def overlayRoot (s : Settings) (root : Node) : Settings × Option DocumentFault :=
  let read := overlayRecord .settings settingsField? root s
  if read.broken then (read.value, some .unfitMerge)
  else if read.faults = [] then (read.value, none)
  else (read.value, some (.mistyped read.faults))

/-- The settings after a document. -/
def overlay (s : Settings) (document : Text) : Settings × Option DocumentFault :=
  match Yaml.document? document with
  | none => (s, some .malformed)
  | some none => (s, none)
  | some (some root) => s.overlayRoot root

/-- Reads documents by overlaying them. -/
def ofDocument : Decoder := fun s text =>
  match Yaml.document? text with
  | none => .faulty DocumentFault.malformed.message
  | some none => .nothing
  | some (some root) =>
    match s.overlayRoot root with
    | (s, none) => .settings s
    | (_, some fault) => .faulty fault.message

end StackLang.Settings
