import StackLang.Macro
import StackLang.Path
import StackLang.Token.Lexer

/-!
# Macros and included files in a source

A source is read in order: a definition enters the macro table, a word that names a macro is
replaced by what it stands for, and an included file is replaced by its own tokens. A file is read
once; naming it again contributes nothing, and naming a file from within itself is an error. What a
run has defined and read stays for the next one, also after an error.

- `Reading.source`: the tokens of a source. Files on the chain from the first source are distinct
  and among the files that can be read, so the reading ends.
-/

set_option autoImplicit false

namespace StackLang

/-- The files that a source may include. -/
structure Library where
  /-- The directory where relative paths start. -/
  cwd : Text
  /-- The contents of the file at a path, or why it cannot be read. -/
  read : Text → Except Text Text
  /-- The absolute paths of the files that can be read. -/
  files : List Text
  /-- What can be read is one of the files. -/
  mem_files : ∀ path content, read path = .ok content → Path.absolute cwd path ∈ files

namespace Library

/-- The path that tells files apart. -/
def key (lib : Library) (path : Text) : Text := Path.absolute lib.cwd path

/-- Files given as a list of paths and contents; a path is found as it is written. -/
def ofList (cwd : Text) (entries : List (Text × Text)) : Library where
  cwd := cwd
  read path :=
    match entries.lookup path with
    | some content => .ok content
    | none => .error "file does not exist"
  files := entries.map fun e => Path.absolute cwd e.1
  mem_files path content h := by
    cases he : entries.lookup path with
    | none => simp [he] at h
    | some c =>
      obtain ⟨front, back, hentries, -⟩ := List.lookup_eq_some_iff.1 he
      simp [hentries]

end Library

/-- What has been defined and read so far. -/
structure Reading where
  macros : MacroTable := []
  /-- The keys of the files that have been taken up. -/
  seen : List Text := []
  deriving Repr

namespace Reading

/-- What the inclusion of a file comes to. -/
inductive Opened (lib : Library) (visited : List Text) where
  | failed (f : Failure)
  /-- The file was taken up before. -/
  | skipped
  /-- The text of a file that is not on the chain. -/
  | fresh (path content : Text) (mem : lib.key path ∈ lib.files) (new : lib.key path ∉ visited)

/-- Looks up the file that the literal `name` names in `file`, and notes it as seen when it is to be
read. The chain `visited` leads to `file`. -/
def openFile (lib : Library) (visited : List Text) (file : Text) (st : Reading) (name : Token) :
    Opened lib visited × Reading :=
  match Literal.unquote name.text with
  | .error fault => (.failed ((Cause.badLiteral fault).at name.loc), st)
  | .ok target =>
    let path := Path.join (Path.dir file) target
    if hv : lib.key path ∈ visited then
      (.failed ((Cause.circularInclude target).at name.loc), st)
    else if lib.key path ∈ st.seen then (.skipped, st)
    else
      let st := { st with seen := lib.key path :: st.seen }
      match h : lib.read path with
      | .error reason => (.failed (.unreadable name.loc path reason), st)
      | .ok content => (.fresh path content (lib.mem_files path content h) hv, st)

/-- Puts tokens in front of a result. -/
def prepend (before : List Token) :
    Except Failure (List Token) × Reading → Except Failure (List Token) × Reading
  | (.ok after, st) => (.ok (before ++ after), st)
  | (.error e, st) => (.error e, st)

/-- The tokens that the tokens of `file` stand for, where `visited` is the chain of files that leads
to it. -/
def splice (lib : Library) (visited : List Text) (file : Text) (st : Reading)
    (tokens : List Token) : Except Failure (List Token) × Reading :=
  match tokens with
  | [] => (.ok [], st)
  | t :: rest =>
    if t.isKeyword "MACRO" then
      match _h : MacroDef.read t rest with
      | .error e => (.error e, st)
      | .ok (m, after) =>
        splice lib visited file { st with macros := st.macros.insert m } after
    else if t.isKeyword "INCLUDE" then
      match rest with
      | [] => (.error (Cause.includeWithoutName.at t.loc), st)
      | name :: after =>
        if name.kind ≠ .string then (.error (Cause.includeWithoutName.at t.loc), st)
        else
          match openFile lib visited file st name with
          | (.failed e, st) => (.error e, st)
          | (.skipped, st) => splice lib visited file st after
          | (.fresh path content _ _, st) =>
            match Lexer.tokens path content with
            | .error e => (.error e, st)
            | .ok inner =>
              match splice lib (lib.key path :: visited) path st inner with
              | (.error e, st) => (.error e, st)
              | (.ok included, st) => prepend included (splice lib visited file st after)
    else
      match st.macros.ofToken? t with
      | none => prepend [t] (splice lib visited file st rest)
      | some m =>
        match st.macros.expand t.loc m with
        | .error e => (.error e, st)
        | .ok expanded => prepend expanded (splice lib visited file st rest)
termination_by (unseen lib.files visited, tokens.length)
decreasing_by
  · have := MacroDef.length_of_read _h
    exact Prod.Lex.right _ (by simp only [List.length_cons]; omega)
  · exact Prod.Lex.right _ (by simp only [List.length_cons]; omega)
  · exact Prod.Lex.left _ _ (unseen_cons_lt (by assumption) (by assumption))
  · exact Prod.Lex.right _ (by simp only [List.length_cons]; omega)
  · exact Prod.Lex.right _ (by simp)
  · exact Prod.Lex.right _ (by simp)

/-- The tokens of a source, and what is defined and read after it. -/
def source (lib : Library) (st : Reading) (file content : Text) :
    Except Failure (List Token) × Reading :=
  let st := { st with seen := lib.key file :: st.seen }
  match Lexer.tokens file content with
  | .error e => (.error e, st)
  | .ok tokens => splice lib [lib.key file] file st tokens

end Reading

end StackLang
