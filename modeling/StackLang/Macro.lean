import StackLang.Error

/-!
# Macros

A macro is a named list of tokens without parameters. A word that names a macro stands for its
body, in which such words are replaced in turn; the tokens of a body take the place of the word.

- `MacroTable.expand`: the tokens that a word stands for. The chain of macros that are being
  expanded only holds names of the table and each once, so the expansion ends.
-/

set_option autoImplicit false

namespace StackLang

/-- A definition of a macro; `loc` is the place of its name. -/
structure MacroDef where
  name : Text
  body : List Token
  loc : Location
  deriving DecidableEq, Repr

/-- The macros defined so far. -/
abbrev MacroTable := List MacroDef

/-- The number of names outside `seen`. -/
def unseen (names seen : List Text) : Nat := (names.filter fun n => !seen.contains n).length

theorem unseen_cons_lt {names seen : List Text} {name : Text} (h : name ∈ names)
    (hs : name ∉ seen) : unseen names (name :: seen) < unseen names seen := by
  induction names with
  | nil => simp at h
  | cons n names ih =>
    simp only [unseen, List.filter_cons]
    have hle : (names.filter fun m => !(name :: seen).contains m).length
        ≤ (names.filter fun m => !seen.contains m).length := by
      simp only [← List.countP_eq_length_filter]
      exact List.countP_mono_left fun m _ hm => by simp_all
    by_cases hn : n = name
    · subst hn
      simp [hs]
      simpa using Nat.lt_succ_of_le hle
    · have hm : name ∈ names := by
        rcases List.mem_cons.1 h with h | h
        · exact absurd h.symm hn
        · exact h
      have := ih hm
      simp only [unseen] at this
      by_cases hc : n ∈ seen
      · simpa [hc, hn] using this
      · simpa [hc, hn] using this

namespace MacroTable

/-- The macro with a name. -/
def find? (table : MacroTable) (name : Text) : Option MacroDef :=
  List.find? (·.name = name) table

/-- The table with a macro, which replaces one of the same name. -/
def insert (table : MacroTable) (m : MacroDef) : MacroTable :=
  m :: table.filter (·.name ≠ m.name)

/-- The names of the macros. -/
def names (table : MacroTable) : List Text := table.map (·.name)

/-- The macro that a token names. -/
def ofToken? (table : MacroTable) (t : Token) : Option MacroDef :=
  if t.kind = .word then table.find? t.text else none

theorem name_mem_of_ofToken? {table : MacroTable} {t : Token} {m : MacroDef}
    (h : table.ofToken? t = some m) : m.name ∈ table.names := by
  unfold ofToken? at h
  split at h
  · exact List.mem_map_of_mem (List.mem_of_find?_eq_some h)
  · simp at h

/-- The tokens of a macro's body with all macro words replaced, at the place of `site`. The macros
in `active` are being expanded; a word that names one of them is an error. -/
def expandBody (table : MacroTable) (site : Location) (active : List Text) (body : List Token) :
    Except Failure (List Token) :=
  match body with
  | [] => .ok []
  | t :: rest =>
    match _h : table.ofToken? t with
    | none => (expandBody table site active rest).map ({ t with loc := site } :: ·)
    | some m =>
      if _hm : m.name ∈ active then .error ((Cause.recursiveMacro m.name).at site)
      else
        match expandBody table site (m.name :: active) m.body with
        | .error e => .error e
        | .ok inner => (expandBody table site active rest).map (inner ++ ·)
termination_by (unseen table.names active, body.length)
decreasing_by
  · exact Prod.Lex.right _ (by simp)
  · exact Prod.Lex.left _ _ (unseen_cons_lt (name_mem_of_ofToken? _h) _hm)
  · exact Prod.Lex.right _ (by simp)

/-- The tokens that a macro stands for at a place. -/
def expand (table : MacroTable) (site : Location) (m : MacroDef) : Except Failure (List Token) :=
  expandBody table site [m.name] m.body

end MacroTable

/-! ## Definitions -/

namespace MacroDef

/-- Whether a token ends the body of a macro or may not stand in it. -/
def stopsBody (t : Token) : Bool :=
  t.isKeyword "END" || t.isKeyword "MACRO" || t.isKeyword "INCLUDE"

/-- The definition that starts after the keyword `start`, and the tokens after its end. -/
def read (start : Token) (tokens : List Token) : Except Failure (MacroDef × List Token) :=
  match tokens with
  | [] => .error (Cause.macroWithoutName.at start.loc)
  | name :: rest =>
    if name.kind ≠ .word then .error ((Cause.badMacroName name.text).at name.loc)
    else
      match rest.dropWhile fun t => !stopsBody t with
      | [] => .error ((Cause.macroWithoutEnd name.text).at start.loc)
      | stop :: after =>
        if stop.text = "END" then
          .ok (⟨name.text, rest.takeWhile fun t => !stopsBody t, name.loc⟩, after)
        else .error ((Cause.keywordInMacro stop.text name.text).at stop.loc)

theorem length_of_read {start : Token} {tokens rest : List Token} {m : MacroDef}
    (h : read start tokens = .ok (m, rest)) : rest.length < tokens.length := by
  unfold read at h
  split at h
  · simp at h
  · rename_i name body
    split at h
    · simp at h
    · split at h
      · simp at h
      · rename_i stop after hd
        split at h
        · simp only [Except.ok.injEq, Prod.mk.injEq] at h
          have := (List.dropWhile_sublist (l := body) fun t => !stopsBody t).length_le
          rw [hd] at this
          obtain ⟨-, rfl⟩ := h
          simp only [List.length_cons] at this ⊢
          omega
        · simp at h

end MacroDef

end StackLang
