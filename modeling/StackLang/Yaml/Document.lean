import StackLang.Yaml.Node
import StackLang.Yaml.Scanner

/-!
# From tokens to the root of a document

Blocks are closed by tokens of their own, so a node is told by its first token, and what may be left
out by the token that stands in its place. Only the first document of a text is read; the token
after it has to be there.

Every step passes a token or goes one level down, so a number of steps in proportion to the number
of tokens is enough; `document?` provides it.

- `document?`: the root of the first document, if the text has one and is well formed.
-/

set_option autoImplicit false

namespace StackLang.Yaml

/-- Reads a node unless one of some tokens stands in its place; then nothing is written there, on
the line `line`. Readers of tokens give a result and the tokens after it. -/
def orAbsent (stops : List TokenKind) (line : Nat)
    (read : List Token → Option (Node × List Token)) : List Token → Option (Node × List Token)
  | [] => none
  | t :: ts => if t.kind ∈ stops then some (.absent line, t :: ts) else read (t :: ts)

/-- Reads the value after its mark. Without a mark there is none; where nothing follows the mark,
the value is on the line that `lineOf` gives for the mark and for what follows. -/
def valueAfterMark (stops : List TokenKind) (lineOf : (mark next : Nat) → Nat)
    (read : List Token → Option (Node × List Token)) : List Token → Option (Node × List Token)
  | [] => none
  | t :: ts =>
    if t.kind = .value then
      match ts with
      | [] => none
      | next :: _ => orAbsent stops (lineOf t.line next.line) read ts
    else some (.absent t.line, t :: ts)

/-- What ends the value of a block, or stands in its place. -/
def blockStops : List TokenKind := [.key, .value, .blockEnd]

mutual

/-- A node. Block collections only where `block` holds, and items without a block of their own only
where `items` holds. -/
def node : (steps : Nat) → (block items : Bool) → List Token → Option (Node × List Token)
  | 0, _, _, _ => none
  | _, _, _, [] => none
  | steps + 1, block, items, t :: ts =>
    match t.kind with
    | .scalar quoted text => some (.scalar t.line quoted text, ts)
    | .flowSequenceStart => do
      let (nodes, ts) ← flowItems steps true ts
      return (.sequence t.line nodes, ts)
    | .flowMappingStart => do
      let (entries, ts) ← flowEntries steps true ts
      return (.mapping t.line entries, ts)
    | .blockSequenceStart =>
      if block then do
        let (nodes, ts) ← blockItems steps ts
        return (.sequence t.line nodes, ts)
      else none
    | .blockMappingStart =>
      if block then do
        let (entries, ts) ← blockEntries steps ts
        return (.mapping t.line entries, ts)
      else none
    | .item =>
      if items then do
        let (nodes, ts) ← looseItems steps (t :: ts)
        return (.sequence t.line nodes, ts)
      else none
    | _ => none

/-- The items of a block, up to its end. -/
def blockItems : (steps : Nat) → List Token → Option (List Node × List Token)
  | 0, _ => none
  | _, [] => none
  | steps + 1, t :: ts =>
    match t.kind with
    | .item => do
      let (first, ts) ← orAbsent [.item, .blockEnd] t.line (node steps true false) ts
      let (rest, ts) ← blockItems steps ts
      return (first :: rest, ts)
    | .blockEnd => some ([], ts)
    | _ => none

/-- Items in the column of the keys around them. -/
def looseItems : (steps : Nat) → List Token → Option (List Node × List Token)
  | 0, _ => none
  | _, [] => none
  | steps + 1, t :: ts =>
    if t.kind = .item then do
      let (first, ts) ← orAbsent (.item :: blockStops) t.line (node steps true false) ts
      let (rest, ts) ← looseItems steps ts
      return (first :: rest, ts)
    else some ([], t :: ts)

/-- The entries of a block, up to its end. -/
def blockEntries : (steps : Nat) → List Token → Option (List (Node × Node) × List Token)
  | 0, _ => none
  | _, [] => none
  | steps + 1, t :: ts =>
    match t.kind with
    | .key => do
      let (key, ts) ← orAbsent blockStops t.line (node steps true true) ts
      let (value, ts) ← valueAfterMark blockStops (fun mark _ => mark) (node steps true true) ts
      let (rest, ts) ← blockEntries steps ts
      return ((key, value) :: rest, ts)
    | .blockEnd => some ([], ts)
    | _ => none

/-- The items up to the closing bracket, with a comma before each but the first. A key and a value
without braces are a mapping. -/
def flowItems : (steps : Nat) → (first : Bool) → List Token → Option (List Node × List Token)
  | 0, _, _ => none
  | _, _, [] => none
  | steps + 1, first, t :: ts =>
    if t.kind = .flowSequenceEnd then some ([], ts)
    else
      match (if first then t :: ts else if t.kind = .comma then ts else []) with
      | [] => none
      | t :: ts =>
        if t.kind = .flowSequenceEnd then some ([], ts)
        else do
          let (item, ts) ←
            if t.kind = .key then do
              let (entry, ts) ← flowPair steps ts
              pure (Node.mapping t.line [entry], ts)
            else node steps false false (t :: ts)
          let (rest, ts) ← flowItems steps false ts
          return (item :: rest, ts)

/-- A key and a value without braces. The mark that stands in the place of an absent key is
passed. -/
def flowPair : (steps : Nat) → List Token → Option ((Node × Node) × List Token)
  | 0, _ => none
  | _, [] => none
  | steps + 1, t :: ts => do
    let (key, ts) ←
      if t.kind ∈ [TokenKind.value, .comma, .flowSequenceEnd] then pure (Node.absent t.line, ts)
      else node steps false false (t :: ts)
    let (value, ts) ←
      valueAfterMark [.comma, .flowSequenceEnd] (fun _ next => next) (node steps false false) ts
    return ((key, value), ts)

/-- The entries up to the closing brace, with a comma before each but the first. A key may stand
alone. -/
def flowEntries : (steps : Nat) → (first : Bool) → List Token →
    Option (List (Node × Node) × List Token)
  | 0, _, _ => none
  | _, _, [] => none
  | steps + 1, first, t :: ts =>
    if t.kind = .flowMappingEnd then some ([], ts)
    else
      match (if first then t :: ts else if t.kind = .comma then ts else []) with
      | [] => none
      | t :: ts =>
        if t.kind = .flowMappingEnd then some ([], ts)
        else do
          let (entry, ts) ←
            if t.kind = .key then do
              let line := (ts.head?.map Token.line).getD t.line
              let (key, ts) ←
                orAbsent [.value, .comma, .flowMappingEnd] line (node steps false false) ts
              let (value, ts) ←
                valueAfterMark [.comma, .flowMappingEnd] (fun _ next => next)
                  (node steps false false) ts
              pure ((key, value), ts)
            else do
              let (key, ts) ← node steps false false (t :: ts)
              match ts with
              | [] => none
              | next :: _ => pure ((key, Node.absent next.line), ts)
          let (rest, ts) ← flowEntries steps false ts
          return (entry :: rest, ts)

end

/-- The root of the document that starts here. -/
def root? (ts : List Token) : Option Node := do
  let (root, rest) ← node (2 * ts.length + 2) true false ts
  if rest.isEmpty then none else return root

/-- The root of the first document of a text, or `none` inside when there is no document; `none`
when the text is malformed. -/
def document? (t : Text) : Option (Option Node) :=
  match Token.scan t with
  | _ :: first :: ts =>
    match first.kind, ts with
    | .streamEnd, _ => some none
    | .documentStart, [] => none
    | .documentStart, next :: _ =>
      if next.kind ∈ [TokenKind.documentStart, .documentEnd, .streamEnd] then
        some (some (.absent next.line))
      else (root? ts).map some
    | _, _ => (root? (first :: ts)).map some
  | _ => none

end StackLang.Yaml
