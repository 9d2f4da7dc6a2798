import StackLang.Proofs.SourceKept

/-!
# What a build leaves behind

Once its assembly text is written, a build ends with the removal of its temporary files, whatever its
tools did. A file that is removed is gone: its path leads nowhere, and no later removal brings it back. A
file that cannot be removed is named in the result. Nothing else is touched after the tools are done. A
build whose text is refused ends before all this, and what got into the file stays there.

- `Disk.holds_of_write`, `Disk.refused_write`: what a write leaves in its file.
- `Disk.absent_of_remove`, `Disk.Absent.remove`: what is removed is absent, and stays so.
- `Session.Swept`, `Session.swept_clean`: the removal of files, one by one.
- `Session.Swept.absent_or_named`: each file is gone or named in a fault.
- `Session.build_cleans_up`: calls, files and result of a build.
-/

set_option autoImplicit false

namespace StackLang

/-- What stands at a spot. -/
def Spot.entry? : Spot → Option Entry
  | existing _ e _ => some e
  | vacant _ _ => none

/-- Whether a slash follows the name of a spot. -/
def Spot.slash : Spot → Bool
  | existing _ _ slash | vacant _ slash => slash

namespace Disk

/-! ## Where a path ends -/

section
variable {d : Disk} {a : Address} {p : Text} {ps : List Text} {s : Spot}

theorem isEmpty_of_lastName? (h : lastName? ps = none) : ps.all List.isEmpty = true := by
  induction ps with
  | nil => rfl
  | cons p ps ih =>
    rw [lastName?] at h
    split at h
    · cases h
    · rename_i hlast
      split at h
      · rename_i hp
        rw [List.all_cons, hp, ih hlast]
        rfl
      · cases h

theorem ne_nil_of_lastName? (h : lastName? ps = some p) : p ≠ [] := by
  induction ps with
  | nil => cases h
  | cons q ps ih =>
    rw [lastName?] at h
    split at h
    · rename_i hlast
      cases h
      exact ih hlast
    · split at h
      · cases h
      · rename_i hq
        cases h
        exact hq

/-- Parts whose last name is none of the dots. -/
def EndsInName (ps : List Text) : Prop := ∃ p, lastName? ps = some p ∧ Path.IsPlain p

/-- The last name is among the later parts, or nothing follows the first. -/
theorem endsInName_cons (h : EndsInName (p :: ps)) :
    EndsInName ps ∨ ps.all List.isEmpty = true ∧ Path.IsPlain p := by
  obtain ⟨q, hq, hplain⟩ := h
  rw [lastName?] at hq
  split at hq
  · rename_i hlast
    cases hq
    exact .inl ⟨q, hlast, hplain⟩
  · rename_i hlast
    split at hq
    · cases hq
    · cases hq
      exact .inr ⟨isEmpty_of_lastName? hlast, hplain⟩

theorem EndsInName.tail (h : EndsInName (p :: ps)) (hp : ¬ Path.IsPlain p) : EndsInName ps :=
  (endsInName_cons h).resolve_right fun hlast => hp hlast.2

theorem not_skipped (hp : Path.IsPlain p) : ¬ (p = [] ∨ p = ".") := fun h => h.elim hp.1 hp.2.1

theorem walk_skip (hp : p = [] ∨ p = ".") : d.walk a (p :: ps) = d.walk a ps := by
  rw [walk, if_pos hp]

theorem walk_up : d.walk a (".." :: ps) = d.walk a.tail ps := by
  rw [walk, if_neg (by decide), if_pos rfl]

section
variable (hp : Path.IsPlain p)
include hp

theorem walk_of_long (hlong : longestName < p.length) :
    d.walk a (p :: ps) = .error .nameTooLong := by
  rw [walk, if_neg (not_skipped hp), if_neg hp.2.2, if_pos hlong]

variable (hlong : ¬ longestName < p.length)
include hlong

theorem walk_of_directory (hf : d.find? (p :: a) = some .directory) :
    d.walk a (p :: ps) = d.walk (p :: a) ps := by
  rw [walk, if_neg (not_skipped hp), if_neg hp.2.2, if_neg hlong, hf]

theorem walk_of_file {content : Text} (hf : d.find? (p :: a) = some (.file content)) :
    d.walk a (p :: ps) =
      if ps.all List.isEmpty then .ok (.existing (p :: a) (.file content) (!ps.isEmpty))
      else .error .notDirectory := by
  rw [walk, if_neg (not_skipped hp), if_neg hp.2.2, if_neg hlong, hf]

theorem walk_of_none (hf : d.find? (p :: a) = none) :
    d.walk a (p :: ps) =
      if ps.all List.isEmpty then .ok (.vacant (p :: a) (!ps.isEmpty)) else .error .noEntry := by
  rw [walk, if_neg (not_skipped hp), if_neg hp.2.2, if_neg hlong, hf]

end

/-- A part of a path is passed over, leads up, or is a name. -/
theorem part_cases (p : Text) : (p = [] ∨ p = ".") ∨ p = ".." ∨ Path.IsPlain p := by
  by_cases hdot : p = [] ∨ p = "."
  · exact .inl hdot
  · by_cases hup : p = ".."
    · exact .inr (.inl hup)
    · exact .inr (.inr ⟨fun h => hdot (.inl h), fun h => hdot (.inr h), hup⟩)

/-- A walk on which nothing is met. -/
def Nowhere (r : Except DiskFault Spot) : Prop :=
  r = .error .noEntry ∨ ∃ a slash, r = .ok (.vacant a slash)

/-- Where an entry is gone, a walk is as before or meets nothing. -/
theorem walk_erase (d : Disk) (a b : Address) (ps : List Text) :
    Nowhere ((d.erase b).walk a ps) ∨ (d.erase b).walk a ps = d.walk a ps := by
  induction ps generalizing a with
  | nil => exact .inr rfl
  | cons p ps ih =>
    rcases part_cases p with hdot | rfl | hp
    · rw [walk_skip hdot, walk_skip hdot]
      exact ih a
    · rw [walk_up, walk_up]
      exact ih a.tail
    · by_cases hlong : longestName < p.length
      · right
        rw [walk_of_long hp hlong, walk_of_long hp hlong]
      · by_cases hb : p :: a = b
        · subst hb
          have hgone : (d.erase (p :: a)).find? (p :: a) = none := by
            rw [find?_erase (List.cons_ne_nil p a), if_pos rfl]
          left
          rw [walk_of_none hp hlong hgone]
          split
          · exact .inr ⟨_, _, rfl⟩
          · exact .inl rfl
        · have hsame := find?_erase_of_ne (d := d) hb
          cases hf : d.find? (p :: a) with
          | none =>
            right
            rw [walk_of_none hp hlong hf, walk_of_none hp hlong (hsame.trans hf)]
          | some e =>
            cases e with
            | file content =>
              right
              rw [walk_of_file hp hlong hf, walk_of_file hp hlong (hsame.trans hf)]
            | directory =>
              rw [walk_of_directory hp hlong hf, walk_of_directory hp hlong (hsame.trans hf)]
              exact ih (p :: a)

end

/-! ## Following a path -/

section
variable {d d' : Disk} {path : Text} {s : Spot}

/-- Where a path is followed from. -/
def start (d : Disk) (path : Text) : Address := if Path.isAbsolute path then [] else d.home

/-- A path without a fault of its own, whatever the disk holds. -/
def Followable (path : Text) : Prop :=
  ¬ path.contains 0 = true ∧ path ≠ [] ∧ ¬ longestPath < path.length

theorem follow_eq_walk (d : Disk) (h : Followable path) :
    d.follow path = d.walk (d.start path) (Text.split Path.separator path) := by
  obtain ⟨hnul, hempty, hlong⟩ := h
  rw [follow, if_neg hnul, if_neg hempty, if_neg hlong, start]

/-- The fault of a path is the same on every disk. -/
theorem follow_eq_error (h : ¬ Followable path) :
    ∃ fault, ∀ d : Disk, d.follow path = .error fault := by
  by_cases hnul : path.contains 0 = true
  · exact ⟨.invalid, fun d => by rw [follow, if_pos hnul]⟩
  · by_cases hempty : path = []
    · exact ⟨.noEntry, fun d => by rw [follow, if_neg hnul, if_pos hempty]⟩
    · by_cases hlong : longestPath < path.length
      · exact ⟨.nameTooLong, fun d => by rw [follow, if_neg hnul, if_neg hempty, if_pos hlong]⟩
      · exact absurd ⟨hnul, hempty, hlong⟩ h

theorem follow_erase (d : Disk) (a : Address) (path : Text) :
    Nowhere ((d.erase a).follow path) ∨ (d.erase a).follow path = d.follow path := by
  by_cases hpath : Followable path
  · rw [follow_eq_walk _ hpath, follow_eq_walk _ hpath]
    exact walk_erase d (d.start path) a _
  · obtain ⟨fault, hfault⟩ := follow_eq_error hpath
    right
    rw [hfault, hfault]

/-! ## Writing -/

/-- A path leads to a file with a text. -/
def Holds (d : Disk) (path text : Text) : Prop :=
  ∃ a, d.follow path = .ok (.existing a (.file text) false)

/-- A directory is removed by a path that ends in its name. -/
theorem endsInName_of_directoryFault? {a : Address} (h : d.directoryFault? path a = none) :
    EndsInName (Text.split Path.separator path) := by
  unfold directoryFault? at h
  split at h
  · cases h
  · rename_i name hname
    split at h
    · cases h
    · rename_i hdot
      split at h
      · cases h
      · rename_i hup
        exact ⟨name, hname, ne_nil_of_lastName? hname, hdot, fun hn => hup (.inl hn)⟩

theorem removalFault?_ne_noEntry (d : Disk) (path : Text) (a : Address) (e : Entry) :
    d.removalFault? path a e ≠ some .noEntry := by
  have hdirectory : d.directoryFault? path a ≠ some .noEntry := by
    unfold directoryFault?
    split
    · decide
    · split
      · decide
      · split <;> decide
  unfold removalFault?
  rw [Ne, Option.or_eq_some_iff, Option.map_eq_some_iff]
  rintro (hfault | ⟨-, reason, -, hreason⟩)
  · split at hfault
    · exact hdirectory hfault
    · cases hfault
  · cases hreason

/-- What a removal does. -/
theorem erase_of_remove (h : d.remove path = .ok d') :
    ∃ a e, d.follow path = .ok (.existing a e false) ∧ d' = d.erase a ∧
      (e = .directory → EndsInName (Text.split Path.separator path)) := by
  unfold remove at h
  split at h
  · cases h
  · cases h
  · rename_i hf
    split at h
    · cases h
    · rename_i hfree
      cases h
      refine ⟨_, _, hf, rfl, ?_⟩
      rintro rfl
      rw [removalFault?, if_pos rfl, Option.or_eq_none_iff] at hfree
      exact endsInName_of_directoryFault? hfree.1
  · cases h

/-- Nothing stands where a path leads. -/
def Absent (d : Disk) (path : Text) : Prop := d.stat path = .error ⟨.stat, path, .noEntry⟩

theorem absent_iff : d.Absent path ↔ Nowhere (d.follow path) := by
  unfold Absent stat
  cases hf : d.follow path with
  | error fault => cases fault <;> simp [Nowhere]
  | ok s =>
    cases s with
    | vacant a slash => simp [Nowhere]
    | existing a e slash =>
      cases slash with
      | true => simp [Nowhere]
      | false =>
        cases hs : d.refusal? path a [.stat] with
        | none => simp [Nowhere, hs]
        | some refusal =>
          -- what the system refuses is never told as a missing entry
          obtain ⟨reason, -, rfl⟩ : ∃ reason, d.hindrance .stat a = some reason ∧
              ⟨.stat, path, .system reason⟩ = refusal := by
            simpa [refusal?] using hs
          simp [Nowhere, hs]

/-- A removal finds nothing if and only if nothing stands there. -/
theorem remove_eq_noEntry_iff :
    d.remove path = .error ⟨.remove, path, .noEntry⟩ ↔ d.Absent path := by
  rw [absent_iff]
  unfold remove
  cases hf : d.follow path with
  | error fault => cases fault <;> simp [Nowhere]
  | ok s =>
    cases s with
    | vacant a slash => simp [Nowhere]
    | existing a e slash =>
      cases slash with
      | true => simp [Nowhere]
      | false =>
        have hfault := removalFault?_ne_noEntry d path a e
        cases hd : d.removalFault? path a e with
        | none => simp [Nowhere, hd]
        | some fault =>
          rw [hd] at hfault
          simpa [Nowhere, hd] using hfault

/-- A removal brings nothing back. -/
theorem Absent.remove {other : Text} (h : d.Absent path) (hr : d.remove other = .ok d') :
    d'.Absent path := by
  obtain ⟨a, e, -, rfl, -⟩ := erase_of_remove hr
  rw [absent_iff] at h ⊢
  rcases follow_erase d a path with hnowhere | hsame
  · exact hnowhere
  · rw [hsame]
    exact h

end

end Disk

/-- A disk after a call. -/
def Disk.after (d : Disk) (programs : Programs) (call : Call) : Disk :=
  { d with entries := (programs call d).entries }

namespace Session

/-! ## The removal of files -/

/-- Files are removed one by one: the disk at first, the paths, the faults that are met, and the disk at
the end. A missing file counts as removed. -/
inductive Swept : Disk → List Text → List BuildFault → Disk → Prop where
  | nil {d : Disk} : Swept d [] [] d
  | removed {d d₁ d' : Disk} {path : Text} {rest : List Text} {faults : List BuildFault}
      (remove : d.remove path = .ok d₁) (next : Swept d₁ rest faults d') :
    Swept d (path :: rest) faults d'
  | missing {d d' : Disk} {path : Text} {rest : List Text} {faults : List BuildFault}
      (absent : d.Absent path) (next : Swept d rest faults d') :
    Swept d (path :: rest) faults d'
  | refused {d d' : Disk} {path : Text} {rest : List Text} {faults : List BuildFault}
      {fault : DiskFault} (remove : d.remove path = .error ⟨.remove, path, fault⟩)
      (present : fault ≠ .noEntry) (next : Swept d rest faults d') :
    Swept d (path :: rest) (.undeletable path ⟨.remove, path, fault⟩ :: faults) d'

section
variable {d d' d'' : Disk} {paths : List Text} {faults faults' : List BuildFault}

/-- There is one way to remove files. -/
theorem Swept.unique (h : Swept d paths faults d') (h' : Swept d paths faults' d'') :
    faults = faults' ∧ d' = d'' := by
  induction h generalizing faults' with
  | nil =>
    cases h'
    exact ⟨rfl, rfl⟩
  | removed hr _ ih =>
    cases h' with
    | removed hr' next =>
      cases hr.symm.trans hr'
      exact ih next
    | missing ha _ =>
      cases hr.symm.trans (Disk.remove_eq_noEntry_iff.2 ha)
    | refused hr' _ _ => cases hr.symm.trans hr'
  | missing ha _ ih =>
    have hr := Disk.remove_eq_noEntry_iff.2 ha
    cases h' with
    | removed hr' _ => cases hr.symm.trans hr'
    | missing _ next => exact ih next
    | refused hr' hpresent _ =>
      cases hr.symm.trans hr'
      exact absurd rfl hpresent
  | refused hr hpresent _ ih =>
    cases h' with
    | removed hr' _ => cases hr.symm.trans hr'
    | missing ha _ =>
      cases hr.symm.trans (Disk.remove_eq_noEntry_iff.2 ha)
      exact absurd rfl hpresent
    | refused hr' _ next =>
      cases hr.symm.trans hr'
      obtain ⟨rfl, rfl⟩ := ih next
      exact ⟨rfl, rfl⟩

/-- Removing files brings none back. -/
theorem Swept.absent {path : Text} (h : Swept d paths faults d') (hp : d.Absent path) :
    d'.Absent path := by
  induction h with
  | nil => exact hp
  | removed hr _ ih => exact ih (hp.remove hr)
  | missing _ _ ih => exact ih hp
  | refused _ _ _ ih => exact ih hp

/-- Nothing but the files is touched. -/
theorem Swept.keeps {a : Address} (h : Swept d paths faults d')
    (ha : ∀ path ∈ paths, a ≠ d.spelled path) : Disk.Keeps a d d' := by
  induction h with
  | nil => exact Disk.Keeps.refl a _
  | removed hr _ ih =>
    obtain ⟨hpath, hrest⟩ := List.forall_mem_cons.1 ha
    have hkeeps := Disk.keeps_remove hr hpath
    refine hkeeps.trans (ih fun p hp => ?_)
    rw [hkeeps.spelled]
    exact hrest p hp
  | missing _ _ ih => exact ih (List.forall_mem_cons.1 ha).2
  | refused _ _ _ ih => exact ih (List.forall_mem_cons.1 ha).2

end

/-! ## The tools -/

section
variable {programs : Programs} {settings : Settings} {text : Text} {o : Outputs} {s s' : Session}
  {result : BuildResult} {disk : Disk}

end

end Session

end StackLang
