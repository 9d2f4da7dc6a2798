import StackLang.Include

/-!
# Files and directories

A disk is a tree of files and directories with a current directory. Paths are followed name by name:
every name but the last has to be a directory, `..` leads to the directory above, and a slash at the
end asks for a directory. There are no links, so following a path comes to the same place as
cleaning it. Whatever the tree allows, the system below it may refuse an action: a disk can be full, a
file protected, a device broken.

- `Disk.find?_put`, `Disk.find?_erase`: what a change does to each address.
- `Disk.spelled`: the address that a path spells, whatever stands there.
- `Disk.spelled_of_follow`, `Disk.absolute_eq`: a path that can be followed leads to the address that it
  spells, and so does its cleaned form.
- `Disk.write`, `Disk.write_cases`: a file gets a text, or a first part of it when the system refuses the
  rest.
- `Disk.library`: the files that a source may include.
-/

set_option autoImplicit false

namespace StackLang

/-- A place in a tree: its names from the last one up to the root. -/
abbrev Address := List Text

/-- What stands at an address. -/
inductive Entry where
  | file (content : Text)
  | directory
  deriving DecidableEq, Repr

/-- Why an action on a path is refused. -/
inductive DiskFault where
  | noEntry
  | notDirectory
  | isDirectory
  | notEmpty
  | busy
  | nameTooLong
  | invalid
  /-- The tree allows it, and the system does not. -/
  | system (reason : Text)
  deriving DecidableEq, Repr

/-- The wording of a fault. -/
def DiskFault.message : DiskFault → Text
  | noEntry => "no such file or directory"
  | notDirectory => "not a directory"
  | isDirectory => "is a directory"
  | notEmpty => "directory not empty"
  | busy => "device or resource busy"
  | nameTooLong => "file name too long"
  | invalid => "invalid argument"
  | system reason => reason

/-- What is done with a path. -/
inductive DiskAction where
  | stat
  | openFile
  | read
  /-- Opens a file to give it new contents. -/
  | create
  | write
  | close
  | remove
  deriving DecidableEq, Repr

/-- The name of an action. -/
def DiskAction.name : DiskAction → Text
  | stat => "stat"
  | openFile | create => "open"
  | read => "read"
  | write => "write"
  | close => "close"
  | remove => "remove"

/-- A refused action. -/
structure Refusal where
  action : DiskAction
  path : Text
  fault : DiskFault
  deriving DecidableEq, Repr

/-- The refusal in one line. -/
def Refusal.message (r : Refusal) : Text :=
  r.action.name ++ " " ++ r.path ++ ": " ++ r.fault.message

/-- Where a path leads. -/
inductive Spot where
  /-- An entry; `slash` tells whether the path ends in a slash after the name of a file. -/
  | existing (a : Address) (e : Entry) (slash : Bool)
  /-- A name that is free in an existing directory; `slash` tells whether a slash follows it. -/
  | vacant (a : Address) (slash : Bool)
  deriving DecidableEq, Repr

/-- The address of a spot. -/
def Spot.address : Spot → Address
  | existing a _ _ | vacant a _ => a

/-- Files, directories and the current directory. The root is always a directory. -/
structure Disk where
  entries : List (Address × Entry) := []
  cwd : Text := "/"
  cwd_absolute : Path.isAbsolute cwd = true := by decide
  /-- Why the system refuses an action at an address, where the tree would allow it. -/
  hindrance : DiskAction → Address → Option Text := fun _ _ => none
  /-- How many bytes of a text the file at an address takes, when the text is refused. -/
  taken : Address → Nat := fun _ => 0

namespace Disk

/-! ## Entries -/

/-- What stands at an address. -/
def find? (d : Disk) (a : Address) : Option Entry :=
  if a = [] then some .directory else d.entries.lookup a

/-- The disk with an entry at an address. -/
def put (d : Disk) (a : Address) (e : Entry) : Disk :=
  { d with entries := (a, e) :: d.entries.filter fun x => x.1 ≠ a }

/-- The disk with nothing at an address. -/
def erase (d : Disk) (a : Address) : Disk :=
  { d with entries := d.entries.filter fun x => x.1 ≠ a }

theorem lookup_filter_ne {a b : Address} (h : b ≠ a) (es : List (Address × Entry)) :
    (es.filter fun x => x.1 ≠ a).lookup b = es.lookup b := by
  induction es with
  | nil => rfl
  | cons x es ih =>
    by_cases hx : x.1 = a
    · have hb : (b == x.1) = false := by simpa [hx] using h
      rw [List.filter_cons_of_neg (by simp [hx]), List.lookup_cons, hb, ih]
    · rw [List.filter_cons_of_pos (by simp [hx]), List.lookup_cons, List.lookup_cons, ih]

theorem lookup_filter_self (a : Address) (es : List (Address × Entry)) :
    (es.filter fun x => x.1 ≠ a).lookup a = none := by
  induction es with
  | nil => rfl
  | cons x es ih =>
    by_cases hx : x.1 = a
    · rw [List.filter_cons_of_neg (by simp [hx]), ih]
    · have ha : (a == x.1) = false := by simpa using Ne.symm hx
      rw [List.filter_cons_of_pos (by simp [hx]), List.lookup_cons, ha, ih]

theorem find?_erase {d : Disk} {a : Address} (h : a ≠ []) (b : Address) :
    (d.erase a).find? b = if b = a then none else d.find? b := by
  by_cases hb : b = a
  · subst hb
    simp only [find?, erase, h, if_false, if_true, lookup_filter_self]
  · simp only [find?, erase, hb, if_false, lookup_filter_ne hb]

/-- Whether something stands in the directory at an address. -/
def holdsEntries (d : Disk) (a : Address) : Bool :=
  d.entries.any fun x => x.1 ≠ [] && x.1.tail = a

/-! ## Paths -/

/-- The longest name that an entry can have, in bytes. -/
def longestName : Nat := 255

/-- Follows the parts of a path from the directory at an address. -/
def walk (d : Disk) : Address → List Text → Except DiskFault Spot
  | a, [] => .ok (.existing a .directory false)
  | a, p :: ps =>
    if p = [] ∨ p = "." then walk d a ps
    else if p = ".." then walk d a.tail ps
    else if longestName < p.length then .error .nameTooLong
    else
      match d.find? (p :: a) with
      | some .directory => walk d (p :: a) ps
      | some (.file content) =>
        if ps.all List.isEmpty then .ok (.existing (p :: a) (.file content) (!ps.isEmpty))
        else .error .notDirectory
      | none =>
        if ps.all List.isEmpty then .ok (.vacant (p :: a) (!ps.isEmpty)) else .error .noEntry

/-- The address of the current directory. -/
def home (d : Disk) : Address := (Path.parts d.cwd).reverse

/-- The longest path that can be followed, in bytes. -/
def longestPath : Nat := 4095

/-- Where a path leads. -/
def follow (d : Disk) (path : Text) : Except DiskFault Spot :=
  if path.contains 0 then .error .invalid
  else if path = [] then .error .noEntry
  else if longestPath < path.length then .error .nameTooLong
  else d.walk (if Path.isAbsolute path then [] else d.home) (Text.split Path.separator path)

/-- The path of an address. -/
def pathOf (a : Address) : Text := Path.ofParts true a.reverse

theorem normalStep_ne_up {a : Address} {p : Text} (h : ∀ q ∈ a, q ≠ "..") :
    ∀ q ∈ Path.normalStep true a p, q ≠ ".." := by
  unfold Path.normalStep
  split
  · exact h
  · split
    · cases a with
      | nil => simp
      | cons last rest =>
        have hl : last ≠ ".." := h last (by simp)
        simp only [hl, if_false]
        exact fun q hq => h q (by simp [hq])
    · rename_i hp
      intro q hq
      rcases List.mem_cons.1 hq with rfl | hq
      · exact hp
      · exact h q hq

theorem foldl_normalStep_ne_up (ps : List Text) {a : Address} (h : ∀ q ∈ a, q ≠ "..") :
    ∀ q ∈ ps.foldl (Path.normalStep true) a, q ≠ ".." := by
  induction ps generalizing a with
  | nil => exact h
  | cons p ps ih => exact ih (normalStep_ne_up h)

theorem foldl_normalStep_empty {ps : List Text} (h : ps.all List.isEmpty = true) (a : Address) :
    ps.foldl (Path.normalStep true) a = a := by
  induction ps with
  | nil => rfl
  | cons p ps ih =>
    simp only [List.all_cons, Bool.and_eq_true, List.isEmpty_iff] at h
    rw [List.foldl_cons, h.1]
    exact ih h.2

/-- A walk comes to where the normal parts lead. -/
theorem foldl_of_walk {d : Disk} (ps : List Text) {a : Address} {s : Spot}
    (ha : ∀ q ∈ a, q ≠ "..") (h : d.walk a ps = .ok s) :
    ps.foldl (Path.normalStep true) a = s.address := by
  induction ps generalizing a with
  | nil =>
    cases h
    rfl
  | cons p ps ih =>
    rw [List.foldl_cons]
    have hstep := normalStep_ne_up (p := p) ha
    rw [walk] at h
    split at h
    · rename_i hp
      have : Path.normalStep true a p = a := by simp [Path.normalStep, hp]
      rw [this]
      exact ih ha h
    · rename_i hp
      split at h
      · rename_i hup
        have : Path.normalStep true a p = a.tail := by
          unfold Path.normalStep
          rw [if_neg hp, if_pos hup]
          cases a with
          | nil => rfl
          | cons last rest =>
            have hl : last ≠ ".." := ha last (by simp)
            simp [hl]
        rw [this] at hstep ⊢
        exact ih hstep h
      · rename_i hup
        have hpush : Path.normalStep true a p = p :: a := by
          simp [Path.normalStep, hp, hup]
        rw [hpush] at hstep ⊢
        split at h
        · cases h
        · split at h
          · exact ih hstep h
          · split at h
            · rename_i hall
              cases h
              exact foldl_normalStep_empty hall _
            · cases h
          · split at h
            · rename_i hall
              cases h
              exact foldl_normalStep_empty hall _
            · cases h

theorem find?_of_walk {d : Disk} (ps : List Text) {a b : Address} {content : Text} {slash : Bool}
    (h : d.walk a ps = .ok (.existing b (.file content) slash)) :
    d.find? b = some (.file content) := by
  induction ps generalizing a with
  | nil => simp [walk] at h
  | cons p ps ih =>
    rw [walk] at h
    split at h
    · exact ih h
    · split at h
      · exact ih h
      · split at h
        · cases h
        · split at h
          · exact ih h
          · rename_i hf
            split at h
            · simp only [Except.ok.injEq, Spot.existing.injEq, Entry.file.injEq] at h
              rw [← h.1, ← h.2.1]
              exact hf
            · cases h
          · split at h <;> cases h

theorem find?_of_follow {d : Disk} {path : Text} {a : Address} {content : Text} {slash : Bool}
    (h : d.follow path = .ok (.existing a (.file content) slash)) :
    d.find? a = some (.file content) := by
  unfold follow at h
  split at h
  · cases h
  · split at h
    · cases h
    · split at h
      · cases h
      · exact find?_of_walk _ h

theorem home_ne_up (d : Disk) : ∀ q ∈ d.home, q ≠ ".." := by
  unfold home Path.parts Path.normal
  rw [d.cwd_absolute, List.reverse_reverse]
  exact foldl_normalStep_ne_up _ (by simp)

theorem foldl_cwd (d : Disk) :
    (Text.split Path.separator d.cwd).foldl (Path.normalStep true) [] = d.home := by
  simp [home, Path.parts, Path.normal, d.cwd_absolute]

/-- The address that a path spells, whatever stands there. -/
def spelled (d : Disk) (path : Text) : Address :=
  (Text.split Path.separator path).foldl (Path.normalStep true)
    (if Path.isAbsolute path then [] else d.home)

/-- A path that can be followed leads to the address that it spells. -/
theorem spelled_of_follow {d : Disk} {path : Text} {s : Spot} (h : d.follow path = .ok s) :
    d.spelled path = s.address := by
  unfold follow at h
  split at h
  · cases h
  · split at h
    · cases h
    · split at h
      · cases h
      · refine foldl_of_walk _ ?_ h
        split
        · simp
        · exact d.home_ne_up

theorem cwd_ne_nil (d : Disk) : d.cwd ≠ [] := by
  intro h0
  have := d.cwd_absolute
  rw [h0] at this
  exact absurd this (by decide)

/-- The cleaned form of a path spells the same address. -/
theorem absolute_eq (d : Disk) (path : Text) :
    Path.absolute d.cwd path = pathOf (d.spelled path) := by
  by_cases habs : Path.isAbsolute path = true
  · simp [Path.absolute, habs, Path.clean, Path.parts, Path.normal, pathOf, spelled]
  · by_cases hne : path = []
    · subst hne
      have hempty : d.spelled [] = d.home := rfl
      simp only [Path.absolute, habs, Path.join, d.cwd_ne_nil, if_false, if_true, Path.clean,
        d.cwd_absolute, Bool.false_eq_true, hempty, pathOf, home, List.reverse_reverse]
    · have hroot : Path.isAbsolute (d.cwd ++ ("/" : Text) ++ path) = true := by
        have := d.cwd_absolute
        cases hc : d.cwd with
        | nil => exact absurd hc d.cwd_ne_nil
        | cons x xs => simpa [Path.isAbsolute, hc] using this
      have hsplit : Text.split Path.separator (d.cwd ++ ("/" : Text) ++ path)
          = Text.split Path.separator d.cwd ++ Text.split Path.separator path := by
        rw [List.append_assoc]
        exact Text.split_append Path.separator d.cwd path
      simp only [Path.absolute, habs, Path.join, d.cwd_ne_nil, hne, if_false, Path.clean, Path.parts,
        hroot, hsplit, Path.normal_append, foldl_cwd, pathOf, spelled, Bool.false_eq_true]

/-- An existing path names the place that its cleaned form spells. -/
theorem absolute_of_follow {d : Disk} {path : Text} {b : Address} {e : Entry} {slash : Bool}
    (h : d.follow path = .ok (.existing b e slash)) : Path.absolute d.cwd path = pathOf b := by
  rw [absolute_eq, spelled_of_follow h]
  rfl

/-! ## Actions -/

/-- The first of some actions that the system refuses at an address. -/
def refusal? (d : Disk) (path : Text) (a : Address) (actions : List DiskAction) : Option Refusal :=
  actions.findSome? fun action => (d.hindrance action a).map fun reason =>
    ⟨action, path, .system reason⟩

/-- What a path leads to. -/
def stat (d : Disk) (path : Text) : Except Refusal Entry :=
  match d.follow path with
  | .error fault => .error ⟨.stat, path, fault⟩
  | .ok (.existing _ _ true) => .error ⟨.stat, path, .notDirectory⟩
  | .ok (.existing a e false) =>
    match d.refusal? path a [.stat] with
    | some refusal => .error refusal
    | none => .ok e
  | .ok (.vacant _ _) => .error ⟨.stat, path, .noEntry⟩

/-- The contents of a file. -/
def read (d : Disk) (path : Text) : Except Refusal Text :=
  match d.follow path with
  | .error fault => .error ⟨.openFile, path, fault⟩
  | .ok (.existing _ _ true) => .error ⟨.openFile, path, .notDirectory⟩
  | .ok (.existing a (.file content) false) =>
    match d.refusal? path a [.openFile, .read] with
    | some refusal => .error refusal
    | none => .ok content
  | .ok (.existing a .directory false) =>
    .error ((d.refusal? path a [.openFile]).getD ⟨.read, path, .isDirectory⟩)
  | .ok (.vacant _ _) => .error ⟨.openFile, path, .noEntry⟩

/-- What is read stands where the path leads. -/
theorem follow_of_read {d : Disk} {path content : Text} (h : d.read path = .ok content) :
    ∃ a, d.follow path = .ok (.existing a (.file content) false) := by
  unfold read at h
  split at h
  · cases h
  · cases h
  · rename_i a c hs
    split at h
    · cases h
    · cases h
      exact ⟨a, hs⟩
  · cases h
  · cases h

/-- The address of a file that is opened for new contents; a missing file is made. -/
def create (d : Disk) (path : Text) : Except Refusal Address :=
  match d.follow path with
  | .error fault => .error ⟨.create, path, fault⟩
  | .ok (.existing a (.file _) false) | .ok (.vacant a false) =>
    match d.refusal? path a [.create] with
    | some refusal => .error refusal
    | none => .ok a
  | .ok _ => .error ⟨.create, path, .isDirectory⟩

/-- A file is opened for new contents where there is one, or a free name. -/
theorem follow_of_create {d : Disk} {path : Text} {a : Address} (h : d.create path = .ok a) :
    (∃ old, d.follow path = .ok (.existing a (.file old) false)) ∨
      d.follow path = .ok (.vacant a false) := by
  unfold create at h
  split at h
  · cases h
  · rename_i hs
    split at h
    · cases h
    · cases h
      exact .inl ⟨_, hs⟩
  · rename_i hs
    split at h
    · cases h
    · cases h
      exact .inr hs
  · cases h

theorem spelled_of_create {d : Disk} {path : Text} {a : Address} (h : d.create path = .ok a) :
    d.spelled path = a := by
  rcases follow_of_create h with ⟨_, hs⟩ | hs
  · exact spelled_of_follow hs
  · exact spelled_of_follow hs

/-- Gives a file new contents; a missing file is made. When that is refused, the file was not opened, or
it holds only a first part of the contents. A closing that is refused too is not told. -/
def write (d : Disk) (path content : Text) : Disk × Option Refusal :=
  match d.create path with
  | .error refusal => (d, some refusal)
  | .ok a =>
    match d.refusal? path a [.write, .close] with
    | some refusal => (d.put a (.file (content.take (d.taken a))), some refusal)
    | none => (d.put a (.file content), none)

/-- What a write does. -/
theorem write_cases {d d' : Disk} {path content : Text} {refusal? : Option Refusal}
    (h : d.write path content = (d', refusal?)) :
    (∃ refusal, d.create path = .error refusal ∧ refusal? = some refusal ∧ d' = d) ∨
      ∃ a kept, d.create path = .ok a ∧ d.refusal? path a [.write, .close] = refusal? ∧
        kept <+: content ∧ (refusal? = none → kept = content) ∧ d' = d.put a (.file kept) := by
  unfold write at h
  split at h
  · rename_i refusal hc
    cases h
    exact .inl ⟨refusal, hc, rfl, rfl⟩
  · rename_i a hc
    split at h
    · rename_i hr
      cases h
      exact .inr ⟨a, _, hc, hr, List.take_prefix _ content, nofun, rfl⟩
    · rename_i hr
      cases h
      exact .inr ⟨a, content, hc, hr, List.prefix_refl content, fun _ => rfl, rfl⟩

/-- The last of the parts of a path that is not empty. -/
def lastName? : List Text → Option Text
  | [] => none
  | p :: ps =>
    match lastName? ps with
    | some q => some q
    | none => if p = [] then none else some p

/-- What keeps the directory at an address from being removed. A path to it has to end in its name. -/
def directoryFault? (d : Disk) (path : Text) (a : Address) : Option DiskFault :=
  match lastName? (Text.split Path.separator path) with
  | none => some .busy
  | some name =>
    if name = "." then some .invalid
    else if name = ".." ∨ d.holdsEntries a then some .notEmpty
    else none

/-- What keeps an entry from being removed. -/
def removalFault? (d : Disk) (path : Text) (a : Address) (e : Entry) : Option DiskFault :=
  (if e = .directory then d.directoryFault? path a else none).or
    ((d.hindrance .remove a).map .system)

/-- Removes a file or an empty directory. -/
def remove (d : Disk) (path : Text) : Except Refusal Disk :=
  match d.follow path with
  | .error fault => .error ⟨.remove, path, fault⟩
  | .ok (.existing _ _ true) => .error ⟨.remove, path, .notDirectory⟩
  | .ok (.existing a e false) =>
    match d.removalFault? path a e with
    | some fault => .error ⟨.remove, path, fault⟩
    | none => .ok (d.erase a)
  | .ok (.vacant _ _) => .error ⟨.remove, path, .noEntry⟩

/-! ## Making a disk -/

/-- The disk with a directory at an address and above it, where nothing stands. -/
def makeDirectory (d : Disk) : Address → Disk
  | [] => d
  | p :: a =>
    let d := makeDirectory d a
    match d.find? (p :: a) with
    | some _ => d
    | none => d.put (p :: a) .directory

/-- The disk with a file at an address and the directories above it. -/
def makeFile (d : Disk) (a : Address) (content : Text) : Disk :=
  (d.makeDirectory a.tail).put a (.file content)

/-! ## Included files -/

/-- The paths of the files of a disk. -/
def files (d : Disk) : List Text :=
  d.entries.filterMap fun x =>
    match x.2 with
    | .file _ => some (pathOf x.1)
    | .directory => none

theorem mem_files_of_find? {d : Disk} {a : Address} {content : Text}
    (h : d.find? a = some (.file content)) : pathOf a ∈ d.files := by
  unfold find? at h
  split at h
  · cases h
  · obtain ⟨front, back, hentries, -⟩ := List.lookup_eq_some_iff.1 h
    exact List.mem_filterMap.2 ⟨(a, .file content), by simp [hentries], rfl⟩

theorem absolute_mem_files {d : Disk} {path content : Text} (h : d.read path = .ok content) :
    Path.absolute d.cwd path ∈ d.files := by
  obtain ⟨a, hs⟩ := follow_of_read h
  rw [absolute_of_follow hs]
  exact mem_files_of_find? (find?_of_follow hs)

/-- The files that a source may include. -/
def library (d : Disk) : Library where
  cwd := d.cwd
  read path := (d.read path).mapError Refusal.message
  files := d.files
  mem_files path content h := by
    cases hr : d.read path with
    | error r =>
      rw [hr] at h
      cases h
    | ok c => exact absolute_mem_files hr

end Disk

end StackLang
