import Mathlib.Data.List.Nodup
import StackLang.Proofs.CommandCourse
import StackLang.Proofs.Paths

/-!
# The source of a build

Without a configured output, the files of a build are named after the source. They stand beside it and
keep away from it, unless the source itself ends in one of the suffixes that a build uses, or has nothing
but dots in front of its extension. A run writes and removes only the assembly text and the object file,
so a source with any other extension is left as it was.

- `Outputs.apart_iff`: the sources whose build files keep away from them.
- `Disk.spelled_ne_output`: the address of a source is not that of a file that its build touches.
- `Command.build_spares_source`: a run leaves the source alone.
-/

set_option autoImplicit false

namespace StackLang

open Text (byte)

/-! ## The files beside a source -/

/-- A path that stands in the directory of a source under a name of its own. -/
structure Beside (source path : Text) : Prop where
  name : Path.IsPlain (Path.afterSlash path)
  parts : Path.parts path = Path.parts (Path.dir source) ++ [Path.afterSlash path]

/-- The files of a build. -/
def Outputs.paths (o : Outputs) : List Text := [o.executable, o.assembly, o.object]

/-- Files that stand beside a source, and are neither the source nor one another. -/
structure Outputs.Apart (o : Outputs) (source : Text) : Prop where
  beside : ∀ path ∈ o.paths, Beside source path
  distinct : ((source :: o.paths).map Path.clean).Nodup

/-- What a build puts behind the name of an executable. -/
def outputSuffixes : List Text := [".asm", ".o"]

/-- The part of the file name in front of its extension. -/
def Path.stem (t : Text) : Text :=
  (Path.afterSlash t).take ((Path.afterSlash t).length - (Path.extension t).length)

theorem suffix_spec {e : Text} (he : e ∈ outputSuffixes) :
    Path.separator ∉ e ∧ (∀ n, Path.IsPlain (n ++ e)) ∧
      ∃ tail, e = byte '.' :: tail ∧ byte '.' ∉ tail := by
  have hbytes : ∀ e ∈ outputSuffixes, Path.separator ∉ e ∧ (∃ b ∈ e, b ≠ byte '.') ∧
      e = byte '.' :: e.tail ∧ byte '.' ∉ e.tail := by decide
  obtain ⟨hsep, ⟨b, hb, hdot⟩, heq, htail⟩ := hbytes e he
  exact ⟨hsep, fun n => Path.isPlain_of_mem (List.mem_append_right n hb) hdot, e.tail, heq, htail⟩

section
variable {s : Settings} (hs : s.output = []) {source : Text}
include hs

/-- The directories of a source are those of its executable. -/
theorem before_outputFor (source : Text) :
    Path.before (s.outputFor source) = Path.before source ∧
      Path.isAbsolute (s.outputFor source) = Path.isAbsolute source := by
  rcases Settings.outputFor_cases hs source with ⟨-, -, hout⟩ | ⟨hsep, -, hsource⟩
  · have hsep : Path.separator ∉ (".out" : Text) := by decide
    rw [hout]
    exact ⟨(Path.append_name source hsep).1, Path.isAbsolute_append source hsep⟩
  · have hbefore := (Path.append_name (s.outputFor source) hsep).1
    have habs := Path.isAbsolute_append (s.outputFor source) hsep
    rw [← hsource] at hbefore habs
    exact ⟨hbefore.symm, habs.symm⟩

/-- The name of an executable: that of the source with a suffix, or its stem. -/
theorem name_outputFor (source : Text) :
    (Path.extension source = [] ∧ byte '.' ∉ Path.afterSlash source ∧
      Path.stem source = Path.afterSlash source ∧
        Path.afterSlash (s.outputFor source) = Path.afterSlash source ++ ".out") ∨
    (Path.extension source ≠ [] ∧ Path.afterSlash (s.outputFor source) = Path.stem source ∧
      Path.afterSlash source = Path.stem source ++ Path.extension source) := by
  rcases Settings.outputFor_cases hs source with ⟨hext, hdot, hout⟩ | ⟨hsep, hne, hsource⟩
  · have hsep : Path.separator ∉ (".out" : Text) := by decide
    refine .inl ⟨hext, hdot, ?_, ?_⟩
    · simp [Path.stem, hext]
    · rw [hout, (Path.append_name source hsep).2]
  · have hname := (Path.append_name (s.outputFor source) hsep).2
    rw [← hsource] at hname
    have hstem : Path.stem source = Path.afterSlash (s.outputFor source) := by
      rw [Path.stem, hname]
      simp
    exact .inr ⟨hne, hstem.symm, by rw [hstem, hname]⟩

/-- Whatever is put behind the executable stands beside the source. -/
theorem beside_output {e : Text} (he : Path.separator ∉ e)
    (hplain : Path.IsPlain (Path.afterSlash (s.outputFor source) ++ e)) :
    Beside source (s.outputFor source ++ e) := by
  obtain ⟨hbefore, habs⟩ := before_outputFor hs source
  obtain ⟨hb, hn⟩ := Path.append_name (s.outputFor source) he
  rw [← hn] at hplain
  refine ⟨hplain, ?_⟩
  rw [Path.parts_of_name hplain, Path.parts_dir, hb, hbefore, Path.isAbsolute_append _ he, habs]

end

/-- Of files beside a source, the names tell the cleaned paths apart. -/
theorem nodup_clean {source : Text} {paths : List Text} (h : ∀ path ∈ paths, Beside source path)
    (hnames : (paths.map Path.afterSlash).Nodup) : (paths.map Path.clean).Nodup := by
  refine List.Nodup.of_map (fun path => (Path.parts path).getLastD []) ?_
  have hlast : paths.map ((fun path => (Path.parts path).getLastD []) ∘ Path.clean)
      = paths.map Path.afterSlash := by
    refine List.map_congr_left fun path hpath => ?_
    simp [Path.parts_clean, (h path hpath).parts]
  rw [List.map_map, hlast]
  exact hnames

theorem Outputs.paths_ofExecutable (path : Text) :
    (Outputs.ofExecutable path).paths = ([] :: outputSuffixes).map (path ++ ·) := by
  simp [Outputs.paths, Outputs.ofExecutable, outputSuffixes]

/-- **The sources whose build files keep away from them**: those whose extension is none of the suffixes
of a build, with more than dots in front of it. -/
theorem Outputs.apart_iff {s : Settings} (hs : s.output = []) {source : Text}
    (hfile : Path.IsPlain (Path.afterSlash source)) :
    (Outputs.ofExecutable (s.outputFor source)).Apart source ↔
      Path.extension source ∉ outputSuffixes ∧ Path.IsPlain (Path.stem source) := by
  constructor
  · intro h
    have hpaths := Outputs.paths_ofExecutable (s.outputFor source)
    constructor
    · intro hext
      rcases Settings.outputFor_cases hs source with ⟨h0, -, -⟩ | ⟨-, -, hsource⟩
      · rw [h0] at hext
        exact absurd hext (by decide)
      · -- the source is the file with that suffix
        have hmem : source ∈ (Outputs.ofExecutable (s.outputFor source)).paths := by
          rw [hpaths]
          exact List.mem_map.2 ⟨_, List.mem_cons_of_mem _ hext, hsource.symm⟩
        exact (List.nodup_cons.1 h.distinct).1 (List.mem_map_of_mem hmem)
    · rcases name_outputFor hs source with ⟨-, -, hstem, -⟩ | ⟨-, hstem, -⟩
      · rw [hstem]
        exact hfile
      · rw [← hstem]
        exact (h.beside (s.outputFor source) (by simp [Outputs.paths, Outputs.ofExecutable])).name
  · rintro ⟨hext, hstem⟩
    have hname : Path.IsPlain (Path.afterSlash (s.outputFor source)) ∧
        ∀ e ∈ [] :: outputSuffixes, Path.afterSlash source ≠ Path.afterSlash (s.outputFor source) ++ e := by
      rcases name_outputFor hs source with ⟨-, hdot, -, hout⟩ | ⟨hne, hout, hsource⟩
      · have hmem : byte 'u' ∈ (".out" : Text) ∧ byte '.' ∈ (".out" : Text) := by decide
        rw [hout]
        refine ⟨Path.isPlain_of_mem (List.mem_append_right _ hmem.1) (by decide), ?_⟩
        intro e _ heq
        apply hdot
        rw [heq, List.append_assoc]
        exact List.mem_append_right _ (List.mem_append_left _ hmem.2)
      · rw [hout]
        refine ⟨hstem, fun e he heq => ?_⟩
        rw [hsource] at heq
        rcases List.mem_cons.1 he with rfl | he
        · exact hne (List.append_cancel_left heq)
        · exact hext (List.append_cancel_left heq ▸ he)
    obtain ⟨hplain, hne⟩ := hname
    have hbeside : ∀ path ∈ (Outputs.ofExecutable (s.outputFor source)).paths, Beside source path := by
      rw [Outputs.paths_ofExecutable]
      intro path hpath
      obtain ⟨e, he, rfl⟩ := List.mem_map.1 hpath
      rcases List.mem_cons.1 he with rfl | he
      · exact beside_output hs (by simp) (by rw [List.append_nil]; exact hplain)
      · exact beside_output hs (suffix_spec he).1 ((suffix_spec he).2.1 _)
    have hself : Beside source source :=
      ⟨hfile, by rw [Path.parts_of_name hfile, Path.parts_dir]⟩
    refine ⟨hbeside, nodup_clean (List.forall_mem_cons.2 ⟨hself, hbeside⟩) ?_⟩
    have hnames : (Outputs.ofExecutable (s.outputFor source)).paths.map Path.afterSlash
        = ([] :: outputSuffixes).map (Path.afterSlash (s.outputFor source) ++ ·) := by
      rw [Outputs.paths_ofExecutable, List.map_map]
      refine List.map_congr_left fun e he => (Path.append_name _ ?_).2
      rcases List.mem_cons.1 he with rfl | he
      · simp
      · exact (suffix_spec he).1
    rw [List.map_cons, hnames, List.nodup_cons]
    constructor
    · intro hmem
      obtain ⟨e, he, heq⟩ := List.mem_map.1 hmem
      exact hne e he heq.symm
    · exact List.Nodup.map (fun _ _ => List.append_cancel_left) (by decide)

/-! ## The addresses that a build touches -/

/-- In front of the extension of a name of dots there is at most one dot. -/
theorem stem_of_not_isPlain {name stem ext : Text} (h : ¬ Path.IsPlain name) (hext : ext ≠ [])
    (hname : name = stem ++ ext) : stem = [] ∨ stem = "." := by
  have hcases : name = [] ∨ name = [byte '.'] ∨ name = [byte '.', byte '.'] := by
    by_contra hno
    exact h ⟨fun h0 => hno (.inl h0), fun h1 => hno (.inr (.inl h1)),
      fun h2 => hno (.inr (.inr h2))⟩
  cases stem with
  | nil => exact .inl rfl
  | cons b stem =>
    cases ext with
    | nil => exact absurd rfl hext
    | cons c ext =>
      rw [hname] at hcases
      rcases hcases with h0 | h1 | h2
      · cases h0
      · simp at h1
      · have hlen := congrArg List.length h2
        simp only [List.length_append, List.length_cons, List.length_nil] at hlen
        obtain rfl : stem = [] := List.length_eq_zero_iff.1 (by omega)
        obtain rfl : b = byte '.' := (List.cons.inj h2).1
        exact .inr rfl

namespace Disk

variable (d : Disk) {s : Settings} (hs : s.output = []) {source e : Text}

/-- A path without a name of its own spells its directory, or the one above. -/
theorem spelled_of_not_isPlain (h : ¬ Path.IsPlain (Path.afterSlash source)) :
    d.spelled source = d.above source ∨ d.spelled source = (d.above source).tail := by
  rw [spelled_eq]
  unfold Path.normalStep
  split
  · exact .inl rfl
  · rename_i hempty
    split
    · right
      cases ha : d.above source with
      | nil => rfl
      | cons last rest =>
        obtain ⟨names, ups, heq, hnames, hups⟩ := d.settled_above source
        obtain rfl : ups = 0 := hups rfl
        rw [List.replicate_zero, List.append_nil] at heq
        have hlast : last ≠ ".." := (hnames last (by rw [← heq, ha]; simp)).1.2.2
        simp [hlast]
    · rename_i hup
      exact absurd ⟨fun h0 => hempty (.inl h0), fun h1 => hempty (.inr h1), hup⟩ h

theorem length_suffixed (e : Text) (a : Address) : (suffixed e a).length = max a.length 1 := by
  cases a with
  | nil => rfl
  | cons n a => simp [suffixed]

theorem suffixed_ne (he : e ≠ []) (a : Address) : suffixed e a ≠ a ∧ suffixed e a ≠ a.tail := by
  have hlen := length_suffixed e a
  constructor
  · intro h
    cases a with
    | nil => cases h
    | cons n a =>
      have hn : n ++ e = n := (List.cons.inj h).1
      exact he (List.append_right_eq_self.1 hn)
  · intro h
    rw [h, List.length_tail] at hlen
    omega

/-- A source has no name that ends in a suffix other than its extension. -/
theorem spelled_ne_of_extension (he : e ∈ outputSuffixes) (hext : Path.extension source ≠ e)
    (hfile : Path.IsPlain (Path.afterSlash source)) (n : Text) (a : Address) :
    d.spelled source ≠ (n ++ e) :: a := by
  obtain ⟨-, -, tail, rfl, htail⟩ := suffix_spec he
  rw [spelled_eq, Path.normalStep_plain hfile]
  intro h
  exact hext (Path.extension_of_suffix (List.cons.inj h).1 htail)

include hs

theorem above_outputFor (source : Text) : d.above (s.outputFor source) = d.above source := by
  obtain ⟨hbefore, habs⟩ := before_outputFor hs source
  rw [above, above, hbefore, habs]

/-- **The address of a source** is not that of the text that is written beside it. -/
theorem spelled_ne_output (he : e ∈ outputSuffixes) (hext : Path.extension source ≠ e) :
    d.spelled source ≠ d.spelled (s.outputFor source ++ e) := by
  obtain ⟨hsep, hplain, -⟩ := suffix_spec he
  rw [d.spelled_append hsep (hplain _), d.above_outputFor hs]
  by_cases hfile : Path.IsPlain (Path.afterSlash source)
  · exact d.spelled_ne_of_extension he hext hfile _ _
  · intro h
    have hlen := congrArg List.length h
    rw [List.length_cons] at hlen
    rcases d.spelled_of_not_isPlain hfile with hd | hd
    · rw [hd] at hlen
      omega
    · rw [hd, List.length_tail] at hlen
      omega

/-- **The address of a source** is not that of a file which a build of its executable touches. -/
theorem spelled_ne_built (he : e ∈ outputSuffixes) (hext : Path.extension source ≠ e) :
    d.spelled source ≠ d.spelled (Path.absolute d.cwd (s.outputFor source) ++ e) := by
  obtain ⟨hsep, hplain, tail, hdot, -⟩ := suffix_spec he
  have hne : e ≠ [] := by simp [hdot]
  rw [d.absolute_eq, d.spelled_pathOf_append (d.settled_spelled _) hsep hplain]
  by_cases hfile : Path.IsPlain (Path.afterSlash source)
  · cases hout : d.spelled (s.outputFor source) with
    | nil => exact d.spelled_ne_of_extension he hext hfile [] []
    | cons n a => exact d.spelled_ne_of_extension he hext hfile n a
  · have hspelled := d.spelled_of_not_isPlain hfile
    rw [d.spelled_eq (s.outputFor source), d.above_outputFor hs]
    rcases name_outputFor hs source with ⟨-, -, -, hout⟩ | ⟨hext, hout, hsource⟩
    · -- the executable has a name, so that its address is the longer one
      have hmem : byte 'u' ∈ (".out" : Text) := by decide
      have hname : Path.IsPlain (Path.afterSlash (s.outputFor source)) := by
        rw [hout]
        exact Path.isPlain_of_mem (List.mem_append_right _ hmem) (by decide)
      rw [Path.normalStep_plain hname]
      intro h
      have hlen := congrArg List.length h
      rw [length_suffixed, List.length_cons] at hlen
      rcases hspelled with hd | hd
      · rw [hd] at hlen
        omega
      · rw [hd, List.length_tail] at hlen
        omega
    · have hstem : Path.normalStep true (d.above source) (Path.stem source) = d.above source := by
        unfold Path.normalStep
        rw [if_pos (stem_of_not_isPlain hfile hext hsource)]
      rw [hout, hstem]
      rcases hspelled with hd | hd
      · rw [hd]
        exact Ne.symm (suffixed_ne hne _).1
      · rw [hd]
        exact Ne.symm (suffixed_ne hne _).2

end Disk

/-! ## What a run leaves alone -/

namespace Disk

theorem find?_put_of_ne {d : Disk} {a b : Address} (h : b ≠ a) (e : Entry) :
    (d.put a e).find? b = d.find? b := by
  have hf : (b == a) = false := by simpa using h
  simp only [find?, put, List.lookup_cons, hf, lookup_filter_ne h]

theorem find?_erase_of_ne {d : Disk} {a b : Address} (h : b ≠ a) :
    (d.erase a).find? b = d.find? b := by
  simp only [find?, erase, lookup_filter_ne h]

/-- The current directory, and what stands at an address, are as before. -/
structure Keeps (a : Address) (d d' : Disk) : Prop where
  cwd : d'.cwd = d.cwd
  entry : d'.find? a = d.find? a

theorem Keeps.refl (a : Address) (d : Disk) : Keeps a d d := ⟨rfl, rfl⟩

theorem Keeps.trans {a : Address} {d d' d'' : Disk} (h : Keeps a d d') (h' : Keeps a d' d'') :
    Keeps a d d'' := ⟨h'.cwd.trans h.cwd, h'.entry.trans h.entry⟩

theorem Keeps.spelled {a : Address} {d d' : Disk} (h : Keeps a d d') (path : Text) :
    d'.spelled path = d.spelled path := by
  simp [Disk.spelled, home, h.cwd]

theorem keeps_write {a : Address} {d d' : Disk} {path text : Text} {refusal? : Option Refusal}
    (h : d.write path text = (d', refusal?)) (ha : a ≠ d.spelled path) : Keeps a d d' := by
  rcases write_cases h with ⟨_, -, -, rfl⟩ | ⟨b, kept, hc, -, -, -, rfl⟩
  · exact Keeps.refl a d'
  · rw [spelled_of_create hc] at ha
    exact ⟨rfl, find?_put_of_ne ha _⟩

theorem keeps_remove {a : Address} {d d' : Disk} {path : Text} (h : d.remove path = .ok d')
    (ha : a ≠ d.spelled path) : Keeps a d d' := by
  unfold remove at h
  split at h
  · cases h
  · cases h
  · rename_i hf
    split at h
    · cases h
    · cases h
      rw [spelled_of_follow hf] at ha
      exact ⟨rfl, find?_erase_of_ne ha⟩
  · cases h

end Disk

/-- Programs that leave alone what stands at an address. -/
def Programs.Spare (programs : Programs) (a : Address) : Prop :=
  ∀ (call : Call) (d : Disk), Disk.Keeps a d { d with entries := (programs call d).entries }

namespace Session

theorem keeps_clean {a : Address} {paths : List Text} (s : Session)
    (ha : ∀ path ∈ paths, a ≠ s.disk.spelled path) :
    Disk.Keeps a s.disk (s.clean paths).1.disk := by
  induction paths generalizing s with
  | nil => exact Disk.Keeps.refl a s.disk
  | cons path rest ih =>
    obtain ⟨hpath, hrest⟩ := List.forall_mem_cons.1 ha
    rw [clean]
    split
    · rename_i disk hr
      have hkeeps := Disk.keeps_remove hr hpath
      refine hkeeps.trans (ih { s with disk := disk } fun p hm => ?_)
      rw [hkeeps.spelled]
      exact hrest p hm
    · exact ih s hrest

/-- A build leaves alone what is neither its assembly text nor its object file. -/
theorem Built.keeps {a : Address} {programs : Programs} {settings : Settings} {text : Text}
    {o : Outputs} {s s' : Session} {result : BuildResult}
    (h : Built programs settings text o s s' result) (hp : programs.Spare a)
    (hasm : a ≠ s.disk.spelled o.assembly) (hobj : a ≠ s.disk.spelled o.object) :
    Disk.Keeps a s.disk s'.disk := by
  -- What is left of a build once its tools are done is the removal of temporary files.
  have hclean : ∀ s₁ : Session, Disk.Keeps a s.disk s₁.disk →
      Disk.Keeps a s.disk (s₁.clean (temporaries settings o)).1.disk := by
    intro s₁ htools
    refine htools.trans (keeps_clean s₁ fun path hpath => ?_)
    rw [htools.spelled]
    have hmem : path = o.object ∨ path = o.assembly := by
      unfold temporaries at hpath
      split at hpath <;> simp_all
    rcases hmem with rfl | rfl
    · exact hobj
    · exact hasm
  cases h with
  | refused hw => exact Disk.keeps_write hw hasm
  | @unassembled disk _ _ _ hw ha hc =>
    have hassemble := (Disk.keeps_write hw hasm).trans (hp (settings.assembleCall o) disk)
    have hcleaned := hclean (tool { s with disk := disk } programs (settings.assembleCall o)) hassemble
    rw [hc] at hcleaned
    exact hcleaned
  | @linked disk s₁ _ _ hw ha hs hc =>
    have hassemble : Disk.Keeps a s.disk s₁.disk := by
      rw [hs]
      exact (Disk.keeps_write hw hasm).trans (hp (settings.assembleCall o) disk)
    have hcleaned := hclean (s₁.tool programs (settings.linkCall o)) (hassemble.trans (hp _ _))
    rw [hc] at hcleaned
    exact hcleaned

end Session

namespace Command

open CommandLine (Options)

/-- **The course of a run** leaves the source alone. -/
theorem Course.keeps {env : Surroundings} {s s' : Session} {o : Options} {source : Text}
    {args : List Text} {ending : Except Fault Int} (h : Course env o source args s s' ending)
    (hext : Path.extension source ∉ outputSuffixes) (houtput : o.output = [])
    (hconfig : ∀ loaded, loadSettings env.decoder s.disk o.config
      (Path.dir (Path.absolute s.disk.cwd source)) = .ok loaded → loaded.output = [])
    (hp : env.programs.Spare (s.disk.spelled source)) :
    Disk.Keeps (s.disk.spelled source) s.disk s'.disk := by
  have hne : ∀ e ∈ outputSuffixes, Path.extension source ≠ e := fun e he h => hext (h ▸ he)
  have hmem : (".asm" : Text) ∈ outputSuffixes ∧ (".o" : Text) ∈ outputSuffixes := by decide
  have hout : ∀ p, Ready env.decoder s.disk o source p → p.settings.output = [] := by
    rintro _ ⟨hr, hl, hf, hc⟩
    simp [overrideSettings, houtput, hconfig _ hl]
  have hbuild : ∀ p s₁ result, Ready env.decoder s.disk o source p →
      s.Built env.programs p.settings p.assembly (outputs s.disk.cwd p.settings source) s₁ result →
        Disk.Keeps (s.disk.spelled source) s.disk s₁.disk := by
    intro p s₁ result hready hb
    exact hb.keeps hp (s.disk.spelled_ne_built (hout p hready) hmem.1 (hne _ hmem.1))
      (s.disk.spelled_ne_built (hout p hready) hmem.2 (hne _ hmem.2))
  have hemit : ∀ p disk refusal?, Ready env.decoder s.disk o source p →
      s.disk.write (emitPath p.settings source) p.assembly = (disk, refusal?) →
        Disk.Keeps (s.disk.spelled source) s.disk disk := by
    intro p disk refusal? hready hw
    have hpath : emitPath p.settings source = p.settings.outputFor source ++ ".asm" := by
      simp [emitPath, hout p hready, Outputs.ofExecutable]
    rw [hpath] at hw
    exact Disk.keeps_write hw (s.disk.spelled_ne_output (hout p hready) hmem.1 (hne _ hmem.1))
  cases h with
  | unready hu => exact Disk.Keeps.refl _ s.disk
  | unemitted hready he hw => exact hemit _ _ _ hready hw
  | emitted hready he hw => exact hemit _ _ _ hready hw
  | unbuilt hready he hb hf => exact hbuild _ _ _ hready hb
  | built hready he hb hf hr => exact hbuild _ _ _ hready hb
  | ran hready he hfiles hb hf hr =>
    subst hfiles
    exact (hbuild _ _ _ hready hb).trans (hp _ _)

/-- The source is read from the address that its path spells. -/
theorem find?_of_readSource {d : Disk} {source text : Text} (h : readSource d source = .ok text) :
    d.find? (d.spelled source) = some (.file text) := by
  have hread : d.read (Path.absolute d.cwd source) = .ok text := by
    unfold readSource at h
    dsimp only at h
    split at h
    · cases h
    · cases h
    · cases hr : d.read (Path.absolute d.cwd source) with
      | error refusal =>
        rw [hr] at h
        cases h
      | ok content =>
        rw [hr] at h
        cases h
        rfl
  rw [d.absolute_eq] at hread
  obtain ⟨a, hf⟩ := Disk.follow_of_read hread
  have ha := Disk.spelled_of_follow hf
  rw [d.spelled_pathOf (d.settled_spelled source)] at ha
  rw [ha]
  exact Disk.find?_of_follow hf

/-- **A build leaves its source alone.** For a source with a name of its own and no configured output,
the executable, the assembly text and the object file stand beside the source, apart from it and from
one another, exactly when the extension of the source is none of the suffixes of a build and has more
than dots in front of it. And unless the extension is one of these suffixes, no run on the source without
an output, whatever its other options, the reader of its settings and the disk, changes what stands
there, as long as the programs leave it alone. -/
theorem build_spares_source (source : Text) :
    (∀ settings : Settings, settings.output = [] → Path.IsPlain (Path.afterSlash source) →
      ((Outputs.ofExecutable (settings.outputFor source)).Apart source ↔
        Path.extension source ∉ outputSuffixes ∧ Path.IsPlain (Path.stem source))) ∧
    (Path.extension source ∉ outputSuffixes →
      ∀ (env : Surroundings) (d : Disk) (o : Options) (args : List Text), o.output = [] →
        (∀ loaded, loadSettings env.decoder d o.config (Path.dir (Path.absolute d.cwd source))
          = .ok loaded → loaded.output = []) →
        env.programs.Spare (d.spelled source) →
          (launch env { disk := d } o source args).1.disk.find? (d.spelled source)
              = d.find? (d.spelled source) ∧
            ∀ text, readSource d source = .ok text →
              (launch env { disk := d } o source args).1.disk.find? (d.spelled source)
                = some (.file text)) := by
  refine ⟨fun settings hs hfile => Outputs.apart_iff hs hfile, ?_⟩
  intro hext env d o args houtput hconfig hspare
  have hkept : (launch env { disk := d } o source args).1.disk.find? (d.spelled source)
      = d.find? (d.spelled source) := by
    cases hb : body env { disk := d } o source args with
    | mk s ending =>
      have hkeeps := (course_iff.2 hb).keeps hext houtput hconfig hspare
      rw [launch, hb]
      cases ending with
      | error fault => exact hkeeps.entry
      | ok code => exact hkeeps.entry
  exact ⟨hkept, fun text htext => hkept.trans (find?_of_readSource htext)⟩

/-- A disk with one source, and with settings beside it, in a directory that is not the current one. -/
def sourceDisk : Disk where
  entries := [(["prog.stk", "src", "w"], .file "1 DROP"),
    ([settingsName, "src", "w"], .file taggedDocument), (["src", "w"], .directory),
    (["w"], .directory)]
  cwd := "/w"

/-- Tools that leave their result beside the source. -/
def busyTools : Programs := fun call d =>
  { entries := (d.put [(if call.program = "ld" then "prog" else "prog.o"), "src", "w"]
      (.file call.program)).entries }

theorem busyTools_spare : busyTools.Spare ["prog.stk", "src", "w"] := by
  intro call d
  refine ⟨rfl, Disk.find?_put_of_ne ?_ _⟩
  split <;> decide

theorem build_spares_source_beside :
    (Outputs.ofExecutable (({} : Settings).outputFor "src/prog.stk")).Apart "src/prog.stk" ∧
      loadSettings taggedDecoder sourceDisk [] "/w/src" = .ok { keepAsm := true } ∧
        (launch { decoder := taggedDecoder, programs := busyTools } { disk := sourceDisk }
          { run := true } "src/prog.stk" []).1.disk.find? ["prog.stk", "src", "w"]
            = some (.file "1 DROP") := by
  obtain ⟨hapart, hspared⟩ := build_spares_source "src/prog.stk"
  have hload : loadSettings taggedDecoder sourceDisk [] "/w/src" = .ok { keepAsm := true } := rfl
  have hconfig : ∀ loaded, loadSettings taggedDecoder sourceDisk [] (Path.dir
      (Path.absolute sourceDisk.cwd "src/prog.stk")) = .ok loaded → loaded.output = [] := by
    intro loaded h
    cases hload.symm.trans h
    rfl
  refine ⟨(hapart {} rfl (by decide)).2 (by decide), hload, ?_⟩
  exact (hspared (by decide) { decoder := taggedDecoder, programs := busyTools } sourceDisk
    { run := true } [] rfl hconfig busyTools_spare).2 "1 DROP" rfl

/-- Tools that do nothing. -/
def idleTools : Programs := fun _ d => { entries := d.entries }

/-- A source that has a suffix of the build for its extension is the file that the build writes, and
removes at its end, although no settings say so. -/
theorem source_lost_to_build :
    ¬ (Outputs.ofExecutable (({} : Settings).outputFor "prog.asm")).Apart "prog.asm" ∧
      idleTools.Spare ["prog.asm"] ∧
        readSource (soleDisk "prog.asm") "prog.asm" = .ok "1 DROP" ∧
          (launch { decoder := taggedDecoder, programs := idleTools } { disk := soleDisk "prog.asm" } {}
            "prog.asm" []).1.disk.find? ["prog.asm"] = none := by
  refine ⟨fun h => ?_, fun _ _ => ⟨rfl, rfl⟩, rfl, ?_⟩
  · have hext := ((Outputs.apart_iff (s := {}) rfl (by decide)).1 h).1
    exact hext (by decide)
  · have htokens : (Reading.source (soleDisk "prog.asm").library {} "prog.asm" "1 DROP").1 = .ok _ :=
      source_of_tokens rfl (by decide +kernel)
    obtain ⟨a, hc⟩ := exists_compile _ htokens rfl rfl rfl 256
    have hload : loadSettings taggedDecoder (soleDisk "prog.asm") [] (Path.dir
        (Path.absolute (soleDisk "prog.asm").cwd "prog.asm")) = .ok {} := rfl
    have hplan := plan_of_ready (o := {}) (.compiled rfl hload rfl hc)
    simp only [launch, body, hplan]
    rfl

end Command

end StackLang
