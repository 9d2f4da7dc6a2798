import StackLang.Disk
import StackLang.Proofs.AsciiText
import StackLang.Settings.Basic

/-!
# Paths taken apart

A path is a list of directories and a file name. Cleaning it leaves names, with steps up only at the
start of a relative path, and a cleaned path has the parts that it was made from. A suffix that is put
behind a path changes its last name and nothing else.

- `Path.before`, `Path.split_eq`: the directories and the name of a path, as written.
- `Path.Settled`, `Path.parts_clean`: the parts of a cleaned path.
- `Disk.spelled_append`, `Disk.spelled_pathOf_append`: the address of a path with a suffix.
- `Settings.outputFor_cases`: how a source and its executable are spelled.
-/

set_option autoImplicit false

namespace StackLang

theorem Text.notMem_of_mem_split {sep : UInt8} {t p : Text} (h : p ∈ split sep t) : sep ∉ p := by
  induction t generalizing p with
  | nil =>
    rw [split_nil, List.mem_singleton] at h
    simp [h]
  | cons b t ih =>
    rw [split_cons] at h
    cases hs : split sep t with
    | nil => exact absurd hs (split_ne_nil sep t)
    | cons q qs =>
      rw [hs] at h ih
      by_cases hb : b = sep
      · rw [splitStep, if_pos hb] at h
        rcases List.mem_cons.1 h with rfl | h
        · simp
        · exact ih h
      · rw [splitStep, if_neg hb] at h
        rcases List.mem_cons.1 h with rfl | h
        · rw [List.mem_cons, not_or]
          exact ⟨Ne.symm hb, ih List.mem_cons_self⟩
        · exact ih (List.mem_cons_of_mem _ h)

namespace Path

open Text (byte split)

variable {t e p : Text} {rooted : Bool} {st : List Text}

/-! ## Directories and the name -/

/-- The parts of a path in front of its name, as they are written. -/
def before (t : Text) : List Text := (split separator t).dropLast

theorem upToSlash_append_afterSlash (t : Text) : upToSlash t ++ afterSlash t = t := by
  rw [upToSlash, afterSlash, ← List.reverse_append, List.takeWhile_append_dropWhile,
    List.reverse_reverse]

theorem separator_notMem_afterSlash (t : Text) : separator ∉ afterSlash t := by
  intro h
  have hall := List.all_eq_true.1 List.all_takeWhile _ (List.mem_reverse.1 h)
  simp at hall

/-- A path is a name, or it has a slash in front of its name. -/
theorem name_cases (t : Text) :
    (upToSlash t = [] ∧ afterSlash t = t) ∨ ∃ u, upToSlash t = u ++ [separator] := by
  have happend := upToSlash_append_afterSlash t
  unfold upToSlash
  cases hd : t.reverse.dropWhile (· ≠ separator) with
  | nil =>
    refine .inl ⟨rfl, ?_⟩
    rw [upToSlash, hd] at happend
    exact happend
  | cons b u =>
    have hb := List.head?_dropWhile_not (· ≠ separator) t.reverse
    rw [hd] at hb
    refine .inr ⟨u.reverse, ?_⟩
    rw [List.reverse_cons]
    simpa using hb

/-- The parts of a path with more behind its name. -/
theorem split_append_name (t : Text) (he : separator ∉ e) :
    split separator (t ++ e) = before t ++ [afterSlash t ++ e] := by
  have happend := upToSlash_append_afterSlash t
  have hname := separator_notMem_afterSlash t
  rcases name_cases t with ⟨-, ht⟩ | ⟨u, hu⟩
  · rw [ht] at hname ⊢
    have hmem : separator ∉ t ++ e := by
      rw [List.mem_append, not_or]
      exact ⟨hname, he⟩
    rw [before, Text.split_of_notMem hname, Text.split_of_notMem hmem]
    rfl
  · have hmem : separator ∉ afterSlash t ++ e := by
      rw [List.mem_append, not_or]
      exact ⟨hname, he⟩
    have ht : t = u ++ separator :: afterSlash t := by
      rw [hu, List.append_assoc] at happend
      exact happend.symm
    have hbefore : before t = split separator u := by
      rw [before, ht, Text.split_append, Text.split_of_notMem hname, List.dropLast_concat]
    have hte : t ++ e = u ++ separator :: (afterSlash t ++ e) := by
      rw [← List.cons_append, ← List.append_assoc, ← ht]
    rw [hbefore, hte, Text.split_append, Text.split_of_notMem hmem]

/-- The parts of a path: its directories, and its name. -/
theorem split_eq (t : Text) : split separator t = before t ++ [afterSlash t] := by
  have h := split_append_name t (e := []) (by simp)
  rwa [List.append_nil, List.append_nil] at h

theorem append_name (t : Text) (he : separator ∉ e) :
    before (t ++ e) = before t ∧ afterSlash (t ++ e) = afterSlash t ++ e := by
  have h := (split_eq (t ++ e)).symm.trans (split_append_name t he)
  obtain ⟨hb, hn⟩ := List.append_inj' h rfl
  exact ⟨hb, List.singleton_inj.1 hn⟩

theorem isAbsolute_append (t : Text) (he : separator ∉ e) : isAbsolute (t ++ e) = isAbsolute t := by
  cases t with
  | nil =>
    have hhead : e.head? ≠ some separator := fun h => he (List.mem_of_head? h)
    simp [isAbsolute, hhead]
  | cons b t => rfl

/-! ## Normal parts -/

/-- A name of its own: none that stays where it is or goes up. -/
def IsPlain (p : Text) : Prop := p ≠ [] ∧ p ≠ "." ∧ p ≠ ".."

instance (p : Text) : Decidable (IsPlain p) := inferInstanceAs (Decidable (_ ∧ _))

theorem normalStep_plain (h : IsPlain p) : normalStep rooted st p = p :: st := by
  simp [normalStep, h.1, h.2.1, h.2.2]

/-- Normal parts, the last one first: names, and in front of them the steps up of a relative path. -/
def Settled (rooted : Bool) (st : List Text) : Prop :=
  ∃ names ups, st = names ++ List.replicate ups ("..": Text) ∧
    (∀ n ∈ names, IsPlain n ∧ separator ∉ n) ∧ (rooted = true → ups = 0)

theorem settled_nil (rooted : Bool) : Settled rooted [] := ⟨[], 0, rfl, by simp, fun _ => rfl⟩

theorem Settled.step (hp : separator ∉ p) (h : Settled rooted st) :
    Settled rooted (normalStep rooted st p) := by
  obtain ⟨names, ups, rfl, hnames, hups⟩ := h
  by_cases hempty : p = [] ∨ p = "."
  · unfold normalStep
    rw [if_pos hempty]
    exact ⟨names, ups, rfl, hnames, hups⟩
  · by_cases hup : p = ".."
    · unfold normalStep
      rw [if_neg hempty, if_pos hup]
      cases names with
      | cons n names =>
        obtain ⟨hn, hrest⟩ := List.forall_mem_cons.1 hnames
        simp only [List.cons_append, hn.1.2.2, if_false]
        exact ⟨names, ups, rfl, hrest, hups⟩
      | nil =>
        cases rooted with
        | true =>
          rw [hups rfl]
          exact settled_nil true
        | false =>
          refine ⟨[], ups + 1, ?_, by simp, by simp⟩
          subst hup
          cases ups with
          | zero => rfl
          | succ ups => simp [List.replicate_succ]
    · have hplain : IsPlain p := ⟨fun h => hempty (.inl h), fun h => hempty (.inr h), hup⟩
      rw [normalStep_plain hplain]
      exact ⟨p :: names, ups, rfl, List.forall_mem_cons.2 ⟨⟨hplain, hp⟩, hnames⟩, hups⟩

theorem settled_foldl {ps : List Text} (hps : ∀ p ∈ ps, separator ∉ p) (h : Settled rooted st) :
    Settled rooted (ps.foldl (normalStep rooted) st) := by
  induction ps generalizing st with
  | nil => exact h
  | cons p ps ih =>
    obtain ⟨hp, hps⟩ := List.forall_mem_cons.1 hps
    exact ih hps (h.step hp)

theorem Settled.notMem (h : Settled rooted st) : ∀ p ∈ st, p ≠ [] ∧ separator ∉ p := by
  obtain ⟨names, ups, rfl, hnames, -⟩ := h
  have hup : ("..": Text) ≠ [] ∧ separator ∉ ("..": Text) := by decide
  intro p hp
  rcases List.mem_append.1 hp with hp | hp
  · exact ⟨(hnames p hp).1.1, (hnames p hp).2⟩
  · rw [List.eq_of_mem_replicate hp]
    exact hup

theorem foldl_plain {names : List Text} (h : ∀ n ∈ names, IsPlain n) (st : List Text) :
    names.foldl (normalStep rooted) st = names.reverse ++ st := by
  induction names generalizing st with
  | nil => rfl
  | cons n names ih =>
    obtain ⟨hn, hrest⟩ := List.forall_mem_cons.1 h
    rw [List.foldl_cons, normalStep_plain hn, ih hrest]
    simp

theorem foldl_ups (k m : Nat) :
    (List.replicate k ("..": Text)).foldl (normalStep false) (List.replicate m ("..": Text))
      = List.replicate (k + m) ("..": Text) := by
  induction k generalizing m with
  | zero => simp
  | succ k ih =>
    have hstep : normalStep false (List.replicate m ("..": Text)) ".."
        = List.replicate (m + 1) ("..": Text) := by
      have hdots : ¬ (("..": Text) = [] ∨ ("..": Text) = ".") := by decide
      unfold normalStep
      rw [if_neg hdots, if_pos rfl]
      cases m with
      | zero => rfl
      | succ m => simp [List.replicate_succ]
    rw [List.replicate_succ, List.foldl_cons, hstep, ih]
    congr 1
    omega

/-- Normal parts are not changed by another pass. -/
theorem Settled.foldl_reverse (h : Settled rooted st) :
    st.reverse.foldl (normalStep rooted) [] = st := by
  obtain ⟨names, ups, rfl, hnames, hups⟩ := h
  have hplain : ∀ n ∈ names.reverse, IsPlain n := fun n hn => (hnames n (List.mem_reverse.1 hn)).1
  rw [List.reverse_append, List.reverse_replicate, List.foldl_append]
  have hfold : (List.replicate ups ("..": Text)).foldl (normalStep rooted) []
      = List.replicate ups ("..": Text) := by
    cases rooted with
    | true =>
      rw [hups rfl]
      rfl
    | false => exact foldl_ups ups 0
  rw [hfold, foldl_plain hplain, List.reverse_reverse]

/-- The path with given normal parts has these parts. -/
theorem parts_ofParts (h : Settled rooted st) :
    isAbsolute (ofParts rooted st.reverse) = rooted ∧ parts (ofParts rooted st.reverse) = st.reverse := by
  have hsep : ∀ p ∈ st.reverse, separator ∉ p := fun p hp => (h.notMem p (List.mem_reverse.1 hp)).2
  have hslash : ("/" : Text) = [separator] := by decide
  have hnormal := h.foldl_reverse
  cases rooted with
  | true =>
    have habs : isAbsolute (ofParts true st.reverse) = true := by
      rw [ofParts, if_pos rfl, hslash]
      rfl
    refine ⟨habs, ?_⟩
    have hsplit : split separator (ofParts true st.reverse)
        = [] :: split separator (Text.join [separator] st.reverse) := by
      rw [ofParts, if_pos rfl, hslash]
      exact Text.split_append separator [] _
    have hskip : normalStep true [] [] = [] := rfl
    rw [parts, habs, hsplit, normal, List.foldl_cons, hskip]
    by_cases hne : st.reverse = []
    · rw [hne]
      rfl
    · rw [Text.split_join hne hsep, hnormal]
  | false =>
    by_cases hne : st.reverse = []
    · rw [hne]
      decide
    · have hof : ofParts false st.reverse = Text.join [separator] st.reverse := by
        rw [ofParts, if_neg (by simp), if_neg (by rwa [List.isEmpty_iff]), hslash]
      have habs : isAbsolute (ofParts false st.reverse) = false := by
        rw [hof]
        -- the first part is not empty and has no slash
        cases hr : st.reverse with
        | nil => exact absurd hr hne
        | cons q qs =>
          have hq := h.notMem q (List.mem_reverse.1 (hr ▸ List.mem_cons_self))
          cases q with
          | nil => exact absurd rfl hq.1
          | cons b q =>
            have hb : b ≠ separator := fun hb => hq.2 (hb ▸ List.mem_cons_self)
            cases qs with
            | nil => simp [isAbsolute, hb]
            | cons r qs => simp [isAbsolute, hb]
      refine ⟨habs, ?_⟩
      rw [parts, habs, normal, hof, Text.split_join hne hsep, hnormal]

theorem settled_parts (t : Text) : Settled (isAbsolute t) (parts t).reverse := by
  rw [parts, normal, List.reverse_reverse]
  exact settled_foldl (fun p hp => Text.notMem_of_mem_split hp) (settled_nil _)

/-- **A cleaned path** has the same parts. -/
theorem parts_clean (t : Text) : parts (clean t) = parts t := by
  have h := (parts_ofParts (settled_parts t)).2
  rwa [List.reverse_reverse] at h

/-- The parts of a directory. -/
theorem parts_dir (t : Text) : parts (dir t) = normal (isAbsolute t) (before t) := by
  rw [dir, parts_clean, parts]
  rcases name_cases t with ⟨hu, ht⟩ | ⟨u, hu⟩
  · have hno := separator_notMem_afterSlash t
    rw [ht] at hno
    have habs : isAbsolute t = false := by
      simp only [isAbsolute, decide_eq_false_iff_not]
      exact fun hhead => hno (List.mem_of_head? hhead)
    have hbefore : before t = [] := by
      rw [before, Text.split_of_notMem hno]
      rfl
    rw [hu, habs, hbefore]
    rfl
  · have happend := upToSlash_append_afterSlash t
    have habs := isAbsolute_append (upToSlash t) (separator_notMem_afterSlash t)
    have hbefore := (append_name (upToSlash t) (separator_notMem_afterSlash t)).1
    rw [happend] at habs hbefore
    have hname : afterSlash (upToSlash t) = [] := by simp [hu, afterSlash]
    have hskip (st : List Text) : normalStep (isAbsolute t) st [] = st := by simp [normalStep]
    rw [← habs, split_eq, hname, ← hbefore, normal_append, List.foldl_cons, List.foldl_nil, hskip]
    rfl

/-- The parts of a path with a name of its own: those of its directory, and the name. -/
theorem parts_of_name (h : IsPlain (afterSlash t)) :
    parts t = normal (isAbsolute t) (before t) ++ [afterSlash t] := by
  rw [parts, split_eq, normal_append, List.foldl_cons, List.foldl_nil, normalStep_plain h,
    List.reverse_cons]
  rfl

/-! ## Extensions -/

/-- A name with a byte other than a dot. -/
theorem isPlain_of_mem {b : UInt8} (hb : b ∈ p) (hdot : b ≠ byte '.') : IsPlain p := by
  have hdots : ∀ q ∈ [[], ("." : Text), ("..": Text)], ∀ c ∈ q, c = byte '.' := by decide
  refine ⟨?_, ?_, ?_⟩
  all_goals
    intro hp
    exact hdot (hdots p (by simp [hp]) b hb)

/-- The extension is what follows the last dot. -/
theorem extension_of_suffix {stem tail : Text} (h : afterSlash t = stem ++ byte '.' :: tail)
    (htail : byte '.' ∉ tail) : extension t = byte '.' :: tail := by
  have hmem : (afterSlash t).contains (byte '.') = true := by simp [h]
  have hrev : (afterSlash t).reverse = tail.reverse ++ byte '.' :: stem.reverse := by simp [h]
  have hpos : ∀ b ∈ tail.reverse, decide (b ≠ byte '.') = true := by
    intro b hb
    simp only [decide_eq_true_eq]
    rintro rfl
    exact htail (List.mem_reverse.1 hb)
  unfold extension
  simp only [hmem, if_true, hrev]
  rw [List.takeWhile_append_of_pos hpos, List.takeWhile_cons_of_neg (by simp), List.append_nil,
    List.reverse_reverse]

theorem extension_cases (t : Text) :
    (byte '.' ∉ afterSlash t ∧ extension t = []) ∨ ∃ stem tail,
      afterSlash t = stem ++ byte '.' :: tail ∧ byte '.' ∉ tail ∧ extension t = byte '.' :: tail := by
  by_cases h : byte '.' ∈ afterSlash t
  · obtain ⟨tail, stem, heq, hno⟩ := List.eq_append_cons_of_mem (List.mem_reverse.2 h)
    have hname : afterSlash t = stem.reverse ++ byte '.' :: tail.reverse := by
      rw [← List.reverse_reverse (afterSlash t), heq]
      simp
    have htail : byte '.' ∉ tail.reverse := fun hm => hno (List.mem_reverse.1 hm)
    exact .inr ⟨_, _, hname, htail, extension_of_suffix hname htail⟩
  · refine .inl ⟨h, ?_⟩
    simp [extension, h]

end Path

/-- How a source and its executable are spelled: the executable has a suffix more, or the extension
less. -/
theorem Settings.outputFor_cases {s : Settings} (hs : s.output = []) (source : Text) :
    (Path.extension source = [] ∧ Text.byte '.' ∉ Path.afterSlash source ∧
      s.outputFor source = source ++ ".out") ∨
    (Path.separator ∉ Path.extension source ∧ Path.extension source ≠ [] ∧
      source = s.outputFor source ++ Path.extension source) := by
  unfold Settings.outputFor
  simp only [hs, ne_eq, not_true_eq_false, if_false]
  rcases Path.extension_cases source with ⟨hdot, hext⟩ | ⟨stem, tail, hname, -, hext⟩
  · exact .inl ⟨hext, hdot, by rw [if_pos hext]⟩
  · have hne : Path.extension source ≠ [] := by simp [hext]
    have hsource : source = Path.upToSlash source ++ stem ++ Path.extension source := by
      rw [hext, List.append_assoc, ← hname, Path.upToSlash_append_afterSlash]
    refine .inr ⟨fun hm => ?_, hne, ?_⟩
    · rw [hext] at hm
      exact Path.separator_notMem_afterSlash source (hname ▸ List.mem_append_right _ hm)
    · rw [if_neg hne]
      have hlen : source.length - (Path.extension source).length
          = (Path.upToSlash source ++ stem).length := by
        have := congrArg List.length hsource
        simp only [List.length_append] at this ⊢
        omega
      have htake : source.take (source.length - (Path.extension source).length)
          = Path.upToSlash source ++ stem := by
        rw [hlen]
        exact (congrArg (List.take _) hsource).trans (List.take_left ..)
      rw [htake]
      exact hsource

/-! ## Addresses -/

namespace Disk

variable (d : Disk) {t e : Text}

/-- The address of the directory in which a path spells its name. -/
def above (t : Text) : Address :=
  (Path.before t).foldl (Path.normalStep true) (if Path.isAbsolute t then [] else d.home)

theorem spelled_eq (t : Text) :
    d.spelled t = Path.normalStep true (d.above t) (Path.afterSlash t) := by
  rw [spelled, Path.split_eq, List.foldl_append]
  rfl

theorem above_append (t : Text) (he : Path.separator ∉ e) : d.above (t ++ e) = d.above t := by
  rw [above, above, (Path.append_name t he).1, Path.isAbsolute_append t he]

/-- A suffix stays with the name. -/
theorem spelled_append (he : Path.separator ∉ e) (hplain : Path.IsPlain (Path.afterSlash t ++ e)) :
    d.spelled (t ++ e) = (Path.afterSlash t ++ e) :: d.above t := by
  rw [spelled_eq, above_append d t he, (Path.append_name t he).2, Path.normalStep_plain hplain]

theorem settled_home : Path.Settled true d.home := by
  have h := Path.settled_parts d.cwd
  rwa [d.cwd_absolute] at h

theorem settled_start (t : Text) :
    Path.Settled true (if Path.isAbsolute t then [] else d.home) := by
  split
  · exact Path.settled_nil true
  · exact d.settled_home

theorem settled_above (t : Text) : Path.Settled true (d.above t) := by
  refine Path.settled_foldl (fun p hp => ?_) (d.settled_start t)
  exact Text.notMem_of_mem_split (List.dropLast_subset _ hp)

theorem settled_spelled (t : Text) : Path.Settled true (d.spelled t) :=
  Path.settled_foldl (fun _ hp => Text.notMem_of_mem_split hp) (d.settled_start t)

/-- An address with a suffix behind its name; the root has the suffix for a name. -/
def suffixed (e : Text) : Address → Address
  | [] => [e]
  | n :: a => (n ++ e) :: a

theorem split_pathOf {a : Address} (ha : Path.Settled true a) (hne : a ≠ []) :
    Text.split Path.separator (pathOf a) = [] :: a.reverse := by
  have hslash : ("/" : Text) = [Path.separator] := by decide
  have hsep : ∀ p ∈ a.reverse, Path.separator ∉ p :=
    fun p hp => (ha.notMem p (List.mem_reverse.1 hp)).2
  have hsplit : Text.split Path.separator (pathOf a)
      = [] :: Text.split Path.separator (Text.join [Path.separator] a.reverse) := by
    rw [pathOf, Path.ofParts, if_pos rfl, hslash]
    exact Text.split_append Path.separator [] _
  rw [hsplit, Text.split_join (by simpa using hne) hsep]

/-- A cleaned path spells its address. -/
theorem spelled_pathOf {a : Address} (ha : Path.Settled true a) : d.spelled (pathOf a) = a := by
  obtain ⟨habs, hparts⟩ := Path.parts_ofParts ha
  rw [Path.parts, habs, Path.normal] at hparts
  have hspelled : d.spelled (pathOf a) = (Text.split Path.separator (Path.ofParts true a.reverse)).foldl
      (Path.normalStep true) [] := by
    rw [spelled, pathOf, habs]
    rfl
  rw [hspelled, ← List.reverse_inj, hparts]

/-- **A suffix behind a cleaned path** changes the last name of the address. -/
theorem spelled_pathOf_append {a : Address} (ha : Path.Settled true a) (he : Path.separator ∉ e)
    (hplain : ∀ n, Path.IsPlain (n ++ e)) : d.spelled (pathOf a ++ e) = suffixed e a := by
  rw [spelled_append d he (hplain _)]
  cases a with
  | nil => rfl
  | cons n a =>
    have hsplit := split_pathOf ha (by simp)
    rw [Path.split_eq, List.reverse_cons, ← List.cons_append] at hsplit
    obtain ⟨hbefore, hname⟩ := List.append_inj' hsplit rfl
    have habs : Path.isAbsolute (pathOf (n :: a)) = true := (Path.parts_ofParts ha).1
    have htail : Path.Settled true a := by
      obtain ⟨names, ups, heq, hnames, hups⟩ := ha
      obtain rfl : ups = 0 := hups rfl
      rw [List.replicate_zero, List.append_nil] at heq
      subst heq
      exact ⟨a, 0, by simp, (List.forall_mem_cons.1 hnames).2, fun _ => rfl⟩
    have habove : d.above (pathOf (n :: a)) = a := by
      rw [above, hbefore, habs]
      exact htail.foldl_reverse
    rw [habove, List.singleton_inj.1 hname]
    rfl

end Disk

end StackLang
