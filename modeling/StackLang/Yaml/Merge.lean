import StackLang.Yaml.Meaning
import StackLang.Yaml.Node

/-!
# Merged mappings

The key `<<` of a mapping stands for the entries of other mappings: its value is a mapping, or a
sequence of them. What counts is then a list of layers, the mapping itself first, where an earlier
layer wins over a later one.

- `layers`: a mapping and all that is merged into it.
- `unseen`: the entries of a layer that no earlier layer has.
-/

set_option autoImplicit false

namespace StackLang.Yaml

/-- The meaning of a scalar node. -/
def Node.meaning? : Node → Option Meaning
  | .scalar _ quoted value => some (Meaning.ofScalar quoted value)
  | .sequence _ _ | .mapping _ _ => none

/-- The repeated keys of a mapping, each with its first place. -/
def repeats : List (Node × Node) → List (Node × Node)
  | [] => []
  | (key, _) :: rest =>
    (rest.filter fun e => key.sameKey e.1).map (fun e => (e.1, key)) ++ repeats rest

/-- A mapping as a part of a merge. -/
inductive Layer where
  /-- The entries of a mapping, without the merging one. -/
  | own (entries : List (Node × Node))
  /-- A mapping of which no entry counts, because it repeats keys. -/
  | repeated (keys : List (Node × Node))
  /-- Something that cannot be merged. -/
  | unfit

/-- Whether an entry merges. -/
def merges (e : Node × Node) : Bool := e.1.meaning? = some .merge

mutual

/-- A mapping and what is merged into it. -/
def layers (entries : List (Node × Node)) : List Layer :=
  match repeats entries with
  | [] => .own (entries.filter fun e => !merges e) :: mergedLayers entries
  | keys => [.repeated keys]
termination_by (sizeOf entries, 1)

/-- What the merging entry brings. -/
def mergedLayers : List (Node × Node) → List Layer
  | [] => []
  | (key, value) :: rest =>
    if merges (key, value) then
      match value with
      | .mapping _ inner => layers inner
      | .sequence _ items => itemLayers items
      | .scalar _ _ _ => [.unfit]
    else mergedLayers rest
termination_by entries => (sizeOf entries, 0)

/-- What a sequence of mappings brings. -/
def itemLayers : List Node → List Layer
  | [] => []
  | .mapping _ inner :: rest => layers inner ++ itemLayers rest
  | _ :: _ => [.unfit]
termination_by items => (sizeOf items, 0)

end

/-- The names in a mapping that hide those of later layers: its scalar keys, nulls apart. -/
def names (entries : List (Node × Node)) : List Text :=
  entries.filterMap fun e =>
    match e.1.meaning? with
    | none | some .null => none
    | some _ => some e.1.value

/-- The names that hide merged ones from the start: the keys that are texts. -/
def textNames (entries : List (Node × Node)) : List Text :=
  entries.filterMap fun e =>
    match e.1.meaning? with
    | some .string | some .merge => some e.1.value
    | _ => none

/-- The entries whose names are not among `seen`. -/
def unseen (seen : List Text) (entries : List (Node × Node)) : List (Node × Node) :=
  entries.filter fun e =>
    match e.1.meaning? with
    | none | some .null => true
    | some _ => !seen.contains e.1.value

end StackLang.Yaml
