import StackLang.Command
import StackLang.Proofs.GeneratedCode

/-!
# The course of a run

A run of the command stops at the first step that goes wrong. What it has done by then is told here by
relations, with one case for each way to end: a case names the steps that went well before it, so what a
run called and what it left behind can be read off. The options are given, as is the reader of settings:
what is said here holds of all of them.

- `Session.built_iff`: the courses of a build.
- `Command.Unready`, `Command.plan_eq_error_iff`: what ends a run before anything is written or called.
- `Command.course_iff`: the courses of a run.
- `Command.fails_fast`: calls, files, exit status and report of a run.
-/

set_option autoImplicit false

namespace StackLang

/-! ## Calls -/

/-- The call of the assembler. -/
def Settings.assembleCall (s : Settings) (o : Outputs) : Call :=
  ⟨s.assembler.command, s.assembler.args ++ (["-o", o.object, o.assembly] : List Text), none⟩

/-- The call of the linker. -/
def Settings.linkCall (s : Settings) (o : Outputs) : Call :=
  ⟨s.linker.command, s.linker.args ++ (["-o", o.executable, o.object] : List Text), none⟩

/-- The exit status that a call of an executable stands for. -/
def Ran.exit (r : Ran) : Except RunFault Int :=
  match r.fault with
  | none => .ok 0
  | some (.status code) => if 0 ≤ code then .ok code else .error (.status code)
  | some fault => .error fault

/-- What a call prints on the error stream: all of it, unless the program has an input. -/
def Programs.noise (programs : Programs) (call : Call) (d : Disk) : Text :=
  match call.stdin with
  | none => (programs call d).stdout ++ (programs call d).stderr
  | some _ => (programs call d).stderr

namespace Session

/-- A session after a call of a tool, whose output all goes to the error stream. -/
def tool (s : Session) (programs : Programs) (call : Call) : Session :=
  let ran := programs call s.disk
  { s with
    disk := { s.disk with entries := ran.entries }
    calls := s.calls ++ [call]
    stderr := s.stderr ++ ran.stdout ++ ran.stderr }

/-- A session after a call of an executable, whose output keeps its streams. -/
def program (s : Session) (programs : Programs) (call : Call) : Session :=
  let ran := programs call s.disk
  { s with
    disk := { s.disk with entries := ran.entries }
    calls := s.calls ++ [call]
    stdout := s.stdout ++ ran.stdout
    stderr := s.stderr ++ ran.stderr }

theorem run_eq (s : Session) (programs : Programs) (executable : Text) (args : List Text)
    (stdin : Text) : s.run programs executable args stdin =
      (s.program programs ⟨executable, args, some stdin⟩,
        (programs ⟨executable, args, some stdin⟩ s.disk).exit.mapError (.unrunnable executable)) := by
  simp only [run, program, Ran.exit]
  cases (programs ⟨executable, args, some stdin⟩ s.disk).fault with
  | none => rfl
  | some fault =>
    cases fault with
    | status code => by_cases h : 0 ≤ code <;> simp only [h, if_true, if_false, Except.mapError]
    | broken message => rfl

/-- Removing files changes nothing but the disk. -/
theorem clean_eq (s : Session) (paths : List Text) :
    (s.clean paths).1 = { s with disk := (s.clean paths).1.disk } := by
  induction paths generalizing s with
  | nil => rfl
  | cons path rest ih =>
    rw [clean]
    split
    · exact ih _
    · exact ih s

/-- The error stream holds what the called programs printed, and nothing else. -/
def Relays (programs : Programs) (s : Session) : Prop :=
  ∃ disks : List Disk, disks.length = s.calls.length ∧
    s.stderr = (List.zipWith programs.noise s.calls disks).flatten

theorem relays_initial (programs : Programs) (d : Disk) : Relays programs { disk := d } := ⟨[], rfl, rfl⟩

section
variable {programs : Programs} {s s' : Session}

theorem Relays.call {call : Call} (h : s.Relays programs) (hcalls : s'.calls = s.calls ++ [call])
    (hstderr : s'.stderr = s.stderr ++ programs.noise call s.disk) : s'.Relays programs := by
  obtain ⟨disks, hlength, hs⟩ := h
  refine ⟨disks ++ [s.disk], by simp [hlength, hcalls], ?_⟩
  rw [hcalls, hstderr, List.zipWith_append hlength.symm, hs]
  simp

theorem Relays.tool (h : s.Relays programs) (call : Call) (hcall : call.stdin = none) :
    (s.tool programs call).Relays programs :=
  h.call rfl (by simp [Session.tool, Programs.noise, hcall])

theorem Relays.program {stdin : Text} (h : s.Relays programs) (call : Call)
    (hcall : call.stdin = some stdin) : (s.program programs call).Relays programs :=
  h.call rfl (by simp [Session.program, Programs.noise, hcall])

theorem Relays.clean (h : s.Relays programs) (paths : List Text) :
    (s.clean paths).1.Relays programs := by
  rw [clean_eq]
  exact h

end

/-! ## The course of a build -/

section
variable {programs : Programs} {settings : Settings} {text : Text} {o : Outputs} {s s' : Session}
  {result : BuildResult}

variable (programs settings text o s) in
/-- A build that starts from `s`: the session that it leaves, and its result. -/
inductive Built : Session → BuildResult → Prop where
  /-- The assembly text cannot be written. A part of it may be there all the same. -/
  | refused {disk : Disk} {refusal : Refusal}
      (write : s.disk.write o.assembly text = (disk, some refusal)) :
    Built { s with disk := disk } ⟨some (.unwritten o.assembly refusal), []⟩
  /-- The assembler fails. -/
  | unassembled {disk : Disk} {fault : RunFault} {s' : Session} {leftovers : List BuildFault}
      (write : s.disk.write o.assembly text = (disk, none))
      (assemble : (programs (settings.assembleCall o) disk).fault = some fault)
      (clean : (tool { s with disk := disk } programs (settings.assembleCall o)).clean
        (temporaries settings o) = (s', leftovers)) :
    Built s' ⟨some (.toolFailed .assemble settings.assembler.command fault), leftovers⟩
  /-- The assembler is done and the linker is called, with success or not. -/
  | linked {disk : Disk} {s₁ s' : Session} {leftovers : List BuildFault}
      (write : s.disk.write o.assembly text = (disk, none))
      (assemble : (programs (settings.assembleCall o) disk).fault = none)
      (assembled : s₁ = tool { s with disk := disk } programs (settings.assembleCall o))
      (clean : (s₁.tool programs (settings.linkCall o)).clean (temporaries settings o)
        = (s', leftovers)) :
    Built s' ⟨(programs (settings.linkCall o) s₁.disk).fault.map
      (.toolFailed .link settings.linker.command), leftovers⟩

theorem invoke_assemble (s : Session) :
    s.invoke programs .assemble settings.assembler ["-o", o.object, o.assembly] =
      (s.tool programs (settings.assembleCall o),
        (programs (settings.assembleCall o) s.disk).fault.map
          (.toolFailed .assemble settings.assembler.command)) := rfl

theorem invoke_link (s : Session) :
    s.invoke programs .link settings.linker ["-o", o.executable, o.object] =
      (s.tool programs (settings.linkCall o),
        (programs (settings.linkCall o) s.disk).fault.map
          (.toolFailed .link settings.linker.command)) := rfl

/-- **A build** takes one of these courses, and no other. -/
theorem built_iff :
    Built programs settings text o s s' result ↔ s.build programs settings text o = (s', result) := by
  constructor
  · intro h
    cases h with
    | refused hw => simp only [build, write, hw, Option.map_some]
    | unassembled hw ha hc =>
      simp only [build, write, hw, Option.map_none, assembleAndLink, invoke_assemble, ha,
        Option.map_some, hc]
    | linked hw ha hs hc =>
      subst hs
      simp only [build, write, hw, assembleAndLink, invoke_assemble, invoke_link, ha, Option.map_none,
        hc]
  · intro h
    obtain ⟨disk, refusal?, hw⟩ : ∃ disk refusal?, s.disk.write o.assembly text = (disk, refusal?) :=
      ⟨_, _, rfl⟩
    cases refusal? with
    | some refusal =>
      simp only [build, write, hw, Option.map_some] at h
      cases h
      exact .refused hw
    | none =>
      cases ha : (programs (settings.assembleCall o) disk).fault with
      | some fault =>
        simp only [build, write, hw, Option.map_none, assembleAndLink, invoke_assemble, ha,
          Option.map_some] at h
        cases h
        exact .unassembled hw ha rfl
      | none =>
        simp only [build, write, hw, assembleAndLink, invoke_assemble, invoke_link, ha,
          Option.map_none] at h
        cases h
        exact .linked hw ha rfl rfl

/-- A build calls nothing, the assembler, or both tools: the assembler once the text is written, the
linker once the assembler has succeeded. It fails unless it called both. -/
theorem Built.calls_cases (h : Built programs settings text o s s' result) :
    s'.calls = s.calls ∧ result.succeeded = false ∨
    ∃ disk, s.disk.write o.assembly text = (disk, none) ∧
      (s'.calls = s.calls ++ [settings.assembleCall o] ∧ result.succeeded = false ∨
        s'.calls = s.calls ++ [settings.assembleCall o, settings.linkCall o] ∧
          (programs (settings.assembleCall o) disk).fault = none) := by
  cases h with
  | refused hw => exact .inl ⟨rfl, rfl⟩
  | @unassembled disk _ _ _ hw ha hc =>
    refine .inr ⟨disk, hw, .inl ⟨?_, rfl⟩⟩
    have hcleaned := clean_eq (tool { s with disk := disk } programs (settings.assembleCall o))
      (temporaries settings o)
    rw [hc] at hcleaned
    exact congrArg calls hcleaned
  | @linked disk s₁ _ _ hw ha hs hc =>
    refine .inr ⟨disk, hw, .inr ⟨?_, ha⟩⟩
    have hcleaned := clean_eq (s₁.tool programs (settings.linkCall o)) (temporaries settings o)
    rw [hc] at hcleaned
    refine (congrArg calls hcleaned).trans ?_
    simp [hs, tool]

theorem Built.relays (h : Built programs settings text o s s' result) (hs : s.Relays programs) :
    s'.Relays programs := by
  cases h with
  | refused hw => exact hs
  | @unassembled disk _ _ _ hw ha hc =>
    have hdisk : Relays programs { s with disk := disk } := hs
    have hcleaned := (hdisk.tool (settings.assembleCall o) rfl).clean (temporaries settings o)
    rw [hc] at hcleaned
    exact hcleaned
  | @linked disk s₁ _ _ hw ha hs₁ hc =>
    have hdisk : Relays programs { s with disk := disk } := hs
    have hassembled := hdisk.tool (settings.assembleCall o) rfl
    rw [← hs₁] at hassembled
    have hcleaned := (hassembled.tool (settings.linkCall o) rfl).clean (temporaries settings o)
    rw [hc] at hcleaned
    exact hcleaned

end

end Session

namespace Command

open CommandLine (Options)

/-! ## What is known before anything is written -/

section
variable {decoder : Settings.Decoder} {d : Disk} {o : Options} {source : Text}

variable (decoder d o source) in
/-- What keeps a run from writing or calling anything. -/
inductive Unready : Fault → Prop where
  /-- The source cannot be read. -/
  | source {fault : Fault} (hr : readSource d source = .error fault) : Unready fault
  /-- The settings cannot be read, or are not valid. -/
  | settings {text : Text} {fault : Fault} (hr : readSource d source = .ok text)
      (hl : loadSettings decoder d o.config (Path.dir (Path.absolute d.cwd source)) = .error fault) :
    Unready fault
  /-- The settings are not valid with what the command line says. -/
  | options {text : Text} {loaded : Settings} {fault : Settings.Fault}
      (hr : readSource d source = .ok text)
      (hl : loadSettings decoder d o.config (Path.dir (Path.absolute d.cwd source)) = .ok loaded)
      (hf : (overrideSettings loaded o).fault? = some fault) :
    Unready (.invalidOptions fault)
  /-- The source cannot be compiled. -/
  | compile {text : Text} {loaded : Settings} {failure : Failure}
      (hr : readSource d source = .ok text)
      (hl : loadSettings decoder d o.config (Path.dir (Path.absolute d.cwd source)) = .ok loaded)
      (hf : (overrideSettings loaded o).fault? = none)
      (hc : StackLang.compile d.library source text
        (overrideSettings loaded o).inputBufferSize.toInt = .error failure) :
    Unready (.uncompilable failure)

variable (decoder d o source) in
/-- What a plan is made of. -/
inductive Ready : Plan → Prop where
  | compiled {text : Text} {loaded : Settings} {c : Compiled}
      (hr : readSource d source = .ok text)
      (hl : loadSettings decoder d o.config (Path.dir (Path.absolute d.cwd source)) = .ok loaded)
      (hf : (overrideSettings loaded o).fault? = none)
      (hc : StackLang.compile d.library source text
        (overrideSettings loaded o).inputBufferSize.toInt = .ok c) :
    Ready ⟨overrideSettings loaded o, c.artifact.render⟩

theorem plan_of_unready {fault : Fault} (h : Unready decoder d o source fault) :
    plan decoder d o source = .error fault := by
  unfold plan
  cases h with
  | source hr => rw [hr]; rfl
  | settings hr hl => rw [hr, hl]; rfl
  | options hr hl hf =>
    rw [hr, hl]
    simp only [bind, Except.bind, hf]
    rfl
  | compile hr hl hf hc =>
    rw [hr, hl]
    simp only [bind, Except.bind, hf, hc]
    rfl

theorem plan_of_ready {p : Plan} (h : Ready decoder d o source p) : plan decoder d o source = .ok p := by
  obtain ⟨hr, hl, hf, hc⟩ := h
  unfold plan
  rw [hr, hl]
  simp only [bind, Except.bind, hf, hc]
  rfl

variable (decoder d o source) in
/-- A run is ready, or something keeps it from being so. -/
theorem ready_or_unready : (∃ p, Ready decoder d o source p) ∨ ∃ fault, Unready decoder d o source fault := by
  cases hr : readSource d source with
  | error fault => exact .inr ⟨fault, .source hr⟩
  | ok text =>
    cases hl : loadSettings decoder d o.config (Path.dir (Path.absolute d.cwd source)) with
    | error fault => exact .inr ⟨fault, .settings hr hl⟩
    | ok loaded =>
      cases hf : (overrideSettings loaded o).fault? with
      | some fault => exact .inr ⟨_, .options hr hl hf⟩
      | none =>
        cases hc : StackLang.compile d.library source text
            (overrideSettings loaded o).inputBufferSize.toInt with
        | error failure => exact .inr ⟨_, .compile hr hl hf hc⟩
        | ok c => exact .inl ⟨_, .compiled hr hl hf hc⟩

theorem plan_eq_ok_iff {p : Plan} : plan decoder d o source = .ok p ↔ Ready decoder d o source p := by
  refine ⟨fun h => ?_, plan_of_ready⟩
  obtain ⟨q, hq⟩ | ⟨fault, hu⟩ := ready_or_unready decoder d o source
  · rw [plan_of_ready hq] at h
    cases h
    exact hq
  · rw [plan_of_unready hu] at h
    cases h

theorem plan_eq_error_iff {fault : Fault} :
    plan decoder d o source = .error fault ↔ Unready decoder d o source fault := by
  refine ⟨fun h => ?_, plan_of_unready⟩
  obtain ⟨q, hq⟩ | ⟨fault, hu⟩ := ready_or_unready decoder d o source
  · rw [plan_of_ready hq] at h
    cases h
  · rw [plan_of_unready hu] at h
    cases h
    exact hu

end

/-! ## The course of a run -/

/-- The call of what was built. -/
def runCall (env : Surroundings) (files : Outputs) (args : List Text) : Call :=
  ⟨files.executable, args, some env.stdin⟩

section
variable {env : Surroundings} {o : Options} {source : Text} {args : List Text} {s s' : Session}
  {ending : Except Fault Int}

variable (env o source args s) in
/-- A run that starts from `s`: the session that it leaves, and the fault or the status it ends with. -/
inductive Course : Session → Except Fault Int → Prop where
  | unready {fault : Fault} (hu : Unready env.decoder s.disk o source fault) : Course s (.error fault)
  /-- The assembly text was asked for, and cannot be written. A part of it may be there all the same. -/
  | unemitted {p : Plan} {disk : Disk} {refusal : Refusal} (hp : Ready env.decoder s.disk o source p)
      (he : o.emitAsm = true)
      (hw : s.disk.write (emitPath p.settings source) p.assembly = (disk, some refusal)) :
    Course { s with disk := disk }
      (.error (.unbuildable ⟨some (.unwritten (emitPath p.settings source) refusal), []⟩))
  /-- The assembly text was asked for, and is written. -/
  | emitted {p : Plan} {disk : Disk} (hp : Ready env.decoder s.disk o source p) (he : o.emitAsm = true)
      (hw : s.disk.write (emitPath p.settings source) p.assembly = (disk, none)) :
    Course { s with disk := disk } (.ok 0)
  /-- The build fails, or leaves behind what it should remove. -/
  | unbuilt {p : Plan} {s' : Session} {result : BuildResult} (hp : Ready env.decoder s.disk o source p)
      (he : o.emitAsm = false)
      (hb : s.Built env.programs p.settings p.assembly (outputs s.disk.cwd p.settings source) s' result)
      (hf : result.succeeded = false) :
    Course s' (.error (.unbuildable result))
  /-- The build succeeds, and nothing more was asked for. -/
  | built {p : Plan} {s' : Session} {result : BuildResult} (hp : Ready env.decoder s.disk o source p)
      (he : o.emitAsm = false)
      (hb : s.Built env.programs p.settings p.assembly (outputs s.disk.cwd p.settings source) s' result)
      (hf : result.succeeded = true) (hr : o.run = false) :
    Course s' (.ok 0)
  /-- The build succeeds, and its executable is called. -/
  | ran {p : Plan} {files : Outputs} {s' : Session} {result : BuildResult}
      (hp : Ready env.decoder s.disk o source p) (he : o.emitAsm = false)
      (hfiles : files = outputs s.disk.cwd p.settings source)
      (hb : s.Built env.programs p.settings p.assembly files s' result)
      (hf : result.succeeded = true) (hr : o.run = true) :
    Course (s'.program env.programs (runCall env files args))
      ((env.programs (runCall env files args) s'.disk).exit.mapError fun fault =>
        .unbuildable ⟨some (.unrunnable files.executable fault), []⟩)

/-- What the command does after a build. -/
theorem buildAndRun_eq {p : Plan} {files : Outputs} {result : BuildResult}
    (hfiles : files = outputs s.disk.cwd p.settings source)
    (hb : s.build env.programs p.settings p.assembly files = (s', result)) :
    buildAndRun env s o p source args =
      if result.succeeded = false then (s', .error (.unbuildable result))
      else if o.run = false then (s', .ok 0)
      else
        (s'.program env.programs (runCall env files args),
          (env.programs (runCall env files args) s'.disk).exit.mapError fun fault =>
            .unbuildable ⟨some (.unrunnable files.executable fault), []⟩) := by
  subst hfiles
  simp only [buildAndRun, hb, Session.run_eq, Bool.not_eq_true]
  congr 2
  unfold runCall
  cases (env.programs _ s'.disk).exit with
  | error fault => rfl
  | ok code => rfl

/-- **A run** takes one of these courses, and no other. -/
theorem course_iff :
    Course env o source args s s' ending ↔ body env s o source args = (s', ending) := by
  constructor
  · intro h
    unfold body
    cases h with
    | unready hu => rw [plan_of_unready hu]
    | unemitted hp he hw =>
      simp only [plan_of_ready hp, he, if_true, emit, Session.write, hw, Option.map_some]
    | emitted hp he hw =>
      simp only [plan_of_ready hp, he, if_true, emit, Session.write, hw, Option.map_none]
    | unbuilt hp he hb hf =>
      simp [plan_of_ready hp, he, buildAndRun_eq rfl (Session.built_iff.1 hb), hf]
    | built hp he hb hf hr =>
      simp [plan_of_ready hp, he, buildAndRun_eq rfl (Session.built_iff.1 hb), hf, hr]
    | ran hp he hfiles hb hf hr =>
      simp [plan_of_ready hp, he, buildAndRun_eq hfiles (Session.built_iff.1 hb), hf, hr]
  · intro h
    unfold body at h
    cases hplan : plan env.decoder s.disk o source with
    | error fault =>
      rw [hplan] at h
      cases h
      exact .unready (plan_eq_error_iff.1 hplan)
    | ok p =>
      rw [hplan] at h
      have hp := plan_eq_ok_iff.1 hplan
      dsimp only at h
      split at h
      · rename_i he
        obtain ⟨disk, refusal?, hw⟩ : ∃ disk refusal?,
            s.disk.write (emitPath p.settings source) p.assembly = (disk, refusal?) := ⟨_, _, rfl⟩
        cases refusal? with
        | some refusal =>
          simp only [emit, Session.write, hw, Option.map_some] at h
          cases h
          exact .unemitted hp he hw
        | none =>
          simp only [emit, Session.write, hw, Option.map_none] at h
          cases h
          exact .emitted hp he hw
      · rename_i he
        rw [Bool.not_eq_true] at he
        cases hb : s.build env.programs p.settings p.assembly
            (outputs s.disk.cwd p.settings source) with
        | mk s₁ result =>
          rw [buildAndRun_eq rfl hb] at h
          rw [← Session.built_iff] at hb
          split at h
          · rename_i hf
            cases h
            exact .unbuilt hp he hb hf
          · rename_i hf
            rw [Bool.not_eq_false] at hf
            split at h
            · rename_i hr
              cases h
              exact .built hp he hb hf hr
            · rename_i hr
              rw [Bool.not_eq_false] at hr
              cases h
              exact .ran hp he rfl hb hf hr

end

/-! ## What a run has called and changed -/

section
variable {env : Surroundings} {o : Options} {source : Text} {args : List Text} {d : Disk}
  {s s' : Session} {ending : Except Fault Int}

variable (env o source args d s ending) in
/-- A run on the disk `d` has left `s` and its ending, and did nothing that a step which failed, or an
option, rules out. -/
structure FailFast : Prop where
  unready : ∀ fault, Unready env.decoder d o source fault → s.calls = [] ∧ s.disk = d
  emitAsm : o.emitAsm = true → s.calls = []
  /-- The calls are the first ones of assembler, linker and executable. -/
  calls : ∀ p files, Ready env.decoder d o source p → files = outputs d.cwd p.settings source →
    s.calls <+: [p.settings.assembleCall files, p.settings.linkCall files, runCall env files args]
  /-- The assembler comes after the assembly text is written. -/
  assemble : s.calls ≠ [] →
    ∀ p files, Ready env.decoder d o source p → files = outputs d.cwd p.settings source →
      ∃ disk, d.write files.assembly p.assembly = (disk, none)
  /-- The linker comes after an assembler that succeeded. -/
  link : 2 ≤ s.calls.length →
    ∀ p files, Ready env.decoder d o source p → files = outputs d.cwd p.settings source →
      ∃ disk, d.write files.assembly p.assembly = (disk, none) ∧
        (env.programs (p.settings.assembleCall files) disk).fault = none
  /-- The executable comes after a build that succeeded and left nothing behind, and decides how the run
  ends. -/
  run : 3 ≤ s.calls.length → o.run = true ∧
    ∀ p files, Ready env.decoder d o source p → files = outputs d.cwd p.settings source →
      ∃ s', Session.Built env.programs p.settings p.assembly files { disk := d } s' ⟨none, []⟩ ∧
        ending = (env.programs (runCall env files args) s'.disk).exit.mapError fun fault =>
          .unbuildable ⟨some (.unrunnable files.executable fault), []⟩
  /-- Without an executable the status is zero, or there is a fault. -/
  status : s.calls.length < 3 → ∀ code, ending = .ok code → code = 0

theorem Ready.unique {p q : Plan} (hp : Ready env.decoder d o source p) (hq : Ready env.decoder d o source q) : q = p := by
  have h := plan_of_ready hq
  rw [plan_of_ready hp] at h
  cases h
  rfl

theorem Ready.not_unready {p : Plan} {fault : Fault} (hp : Ready env.decoder d o source p) :
    ¬ Unready env.decoder d o source fault := by
  intro hu
  have h := plan_of_unready hu
  rw [plan_of_ready hp] at h
  cases h

theorem succeeded_iff {result : BuildResult} : result.succeeded = true ↔ result = ⟨none, []⟩ := by
  rcases result with ⟨_ | fault, _ | ⟨leftover, leftovers⟩⟩ <;> simp [BuildResult.succeeded]

/-- A run that called nothing. -/
theorem FailFast.of_calls_nil (hs : s.calls = [])
    (hu : ∀ fault, Unready env.decoder d o source fault → s.disk = d)
    (hstatus : ∀ code, ending = .ok code → code = 0) : FailFast env o source args d s ending where
  unready fault h := ⟨hs, hu fault h⟩
  emitAsm _ := hs
  calls p files _ _ := by simp [hs]
  assemble h := absurd hs h
  link h := by simp [hs] at h
  run h := by simp [hs] at h
  status _ := hstatus

/-- A run that came to its build and no further. -/
theorem FailFast.of_built {p : Plan} {result : BuildResult} (hp : Ready env.decoder d o source p)
    (he : o.emitAsm = false)
    (hb : Session.Built env.programs p.settings p.assembly (outputs d.cwd p.settings source)
      { disk := d } s result)
    (hstatus : ∀ code, ending = .ok code → code = 0) : FailFast env o source args d s ending := by
  rcases hb.calls_cases with ⟨hs, -⟩ | ⟨disk, hw, htools⟩
  · exact .of_calls_nil hs (fun _ hu => absurd hu hp.not_unready) hstatus
  have hprefix : s.calls <+: [p.settings.assembleCall (outputs d.cwd p.settings source),
      p.settings.linkCall (outputs d.cwd p.settings source)] := by
    rcases htools with ⟨hs, -⟩ | ⟨hs, -⟩
    · exact hs ▸ ⟨_, rfl⟩
    · exact hs ▸ List.prefix_refl _
  have hlength : s.calls.length ≤ 2 := hprefix.length_le
  refine
    { unready := fun _ h => absurd h hp.not_unready
      emitAsm := fun h => by simp [he] at h
      calls := ?_
      assemble := ?_
      link := ?_
      run := fun h => by omega
      status := fun _ => hstatus }
  · rintro q _ hq rfl
    cases hp.unique hq
    exact hprefix.trans ⟨_, rfl⟩
  · rintro - q _ hq rfl
    cases hp.unique hq
    exact ⟨disk, hw⟩
  · rintro htwo q _ hq rfl
    cases hp.unique hq
    rcases htools with ⟨hs, -⟩ | ⟨-, ha⟩
    · rw [hs] at htwo
      simp at htwo
    · exact ⟨disk, hw, ha⟩

/-- **What a course rules out.** -/
theorem Course.failFast (h : Course env o source args { disk := d } s ending) :
    FailFast env o source args d s ending := by
  cases h with
  | unready hu => exact .of_calls_nil rfl (fun _ _ => rfl) (by simp)
  | unemitted hp he hw =>
    exact .of_calls_nil rfl (fun _ hu => absurd hu hp.not_unready) (by simp)
  | emitted hp he hw =>
    exact .of_calls_nil rfl (fun _ hu => absurd hu hp.not_unready) (by simp)
  | unbuilt hp he hb hf => exact .of_built hp he hb (by simp)
  | built hp he hb hf hr => exact .of_built hp he hb (by simp)
  | @ran p files s' result hp he hfiles hb hf hr =>
    obtain ⟨disk, hw, hs, ha⟩ : ∃ disk, d.write files.assembly p.assembly = (disk, none) ∧
        s'.calls = [p.settings.assembleCall files, p.settings.linkCall files] ∧
          (env.programs (p.settings.assembleCall files) disk).fault = none := by
      rcases hb.calls_cases with ⟨-, hfailed⟩ | ⟨disk, hw, ⟨-, hfailed⟩ | ⟨hs, ha⟩⟩
      · exact absurd (hfailed.symm.trans hf) (by decide)
      · exact absurd (hfailed.symm.trans hf) (by decide)
      · exact ⟨disk, hw, hs, ha⟩
    have hcalls : (s'.program env.programs (runCall env files args)).calls
        = [p.settings.assembleCall files, p.settings.linkCall files, runCall env files args] := by
      simp [Session.program, hs]
    rw [succeeded_iff] at hf
    subst hf hfiles
    refine
      { unready := fun _ hu => absurd hu hp.not_unready
        emitAsm := fun h => by simp [he] at h
        calls := ?_
        assemble := ?_
        link := ?_
        run := fun _ => ⟨hr, ?_⟩
        status := fun h => by simp [hcalls] at h }
    · rintro q _ hq rfl
      cases hp.unique hq
      exact hcalls ▸ List.prefix_refl _
    · rintro - q _ hq rfl
      cases hp.unique hq
      exact ⟨disk, hw⟩
    · rintro - q _ hq rfl
      cases hp.unique hq
      exact ⟨disk, hw, ha⟩
    · rintro q _ hq rfl
      cases hp.unique hq
      exact ⟨s', hb, rfl⟩

theorem Course.relays (h : Course env o source args s s' ending) (hs : s.Relays env.programs) :
    s'.Relays env.programs := by
  cases h with
  | unready hu => exact hs
  | unemitted hp he hw => exact hs
  | emitted hp he hw => exact hs
  | unbuilt hp he hb hf => exact hb.relays hs
  | built hp he hb hf hr => exact hb.relays hs
  | ran hp he hfiles hb hf hr => exact (hb.relays hs).program _ rfl

/-- **A run fails fast.** Whatever its options, a run with a source takes a course in which nothing
follows a step that failed: no call and no change of a file before the source is compiled, no assembler
without its text, no linker without an assembler that succeeded, no executable without a build that
succeeded. Its status is 1, with one report after what the programs printed, when a step failed.
Otherwise it has no report, and its status is that of the executable, or zero without one. -/
theorem fails_fast (env : Surroundings) (d : Disk) (o : Options) (source : Text) (args : List Text) :
    ∃ s ending, Course env o source args { disk := d } s ending ∧
      FailFast env o source args d s ending ∧ s.Relays env.programs ∧
      (∀ fault, ending = .error fault → launch env { disk := d } o source args =
        ({ s with stderr := s.stderr ++
          (Report.Style.mk s.disk.cwd (env.colored && !o.noColor)).render fault.problem }, 1)) ∧
      ∀ code, ending = .ok code → launch env { disk := d } o source args = (s, code) := by
  cases hb : body env { disk := d } o source args with
  | mk s ending =>
    have hcourse : Course env o source args { disk := d } s ending := course_iff.2 hb
    have hlaunch : launch env { disk := d } o source args = conclude env o (s, ending) := by
      rw [launch, hb]
    refine ⟨s, ending, hcourse, hcourse.failFast, hcourse.relays (Session.relays_initial _ d), ?_, ?_⟩
    · rintro fault rfl
      exact hlaunch
    · rintro code rfl
      exact hlaunch

end

theorem isAbsolute_root : Path.isAbsolute "/" = true := by decide

/-- A disk with one source in the current directory. -/
def soleDisk (name : Text) : Disk where
  entries := [([name], .file "1 DROP")]
  cwd := "/"
  cwd_absolute := isAbsolute_root

/-- Programs that do nothing and fail. -/
def brokenTools : Programs := fun _ d => { entries := d.entries, fault := some (.status 1) }

/-- A document with a tagged value, which keeps the assembly text. -/
def taggedDocument : Text := "keep_asm: !!bool true"

/-- The reader of that document alone. -/
def taggedDecoder : Settings.Decoder := fun s text =>
  if text = taggedDocument then .settings { s with keepAsm := true } else .nothing

/-- A disk with a source, and with the document beside it. -/
def taggedDisk : Disk where
  entries := [(["prog.stk"], .file "1 DROP"), ([settingsName], .file taggedDocument)]
  cwd := "/"
  cwd_absolute := isAbsolute_root

/-- Surroundings where the document counts and every program fails. -/
def brokenSurroundings : Surroundings := { decoder := taggedDecoder, programs := brokenTools }

/-- The assembler fails, so that neither the linker nor the executable is called, and one report tells
why. The assembly text stays, as the settings say. -/
theorem fails_fast_unassembled :
    ∃ s fault, Course brokenSurroundings { run := true } "prog.stk" [] { disk := taggedDisk } s
        (.error fault) ∧
      s.calls = [({} : Settings).assembleCall (outputs "/" {} "prog.stk")] ∧
      (s.disk.find? ["prog.asm"]).isSome = true ∧
      launch brokenSurroundings { disk := taggedDisk } { run := true } "prog.stk" []
        = ({ s with stderr := "error: assemble failed (nasm): exit status 1\n" }, 1) := by
  have htokens : (Reading.source taggedDisk.library {} "prog.stk" "1 DROP").1 = .ok _ :=
    source_of_tokens rfl (by decide +kernel)
  obtain ⟨a, hc⟩ := exists_compile _ htokens rfl rfl rfl 256
  have hload : loadSettings taggedDecoder taggedDisk [] (Path.dir
      (Path.absolute taggedDisk.cwd "prog.stk")) = .ok { keepAsm := true } := rfl
  have hplan : plan brokenSurroundings.decoder taggedDisk { run := true } "prog.stk" = .ok _ :=
    plan_of_ready (.compiled rfl hload rfl hc)
  obtain ⟨s, ending, hcourse, -, -, hreport, -⟩ := fails_fast brokenSurroundings taggedDisk
    { run := true } "prog.stk" []
  have hbody := course_iff.1 hcourse
  simp only [body, hplan] at hbody
  obtain ⟨hs, hending⟩ := Prod.mk.inj hbody
  obtain rfl : .error (.unbuildable ⟨some (.toolFailed .assemble "nasm" (.status 1)), []⟩) = ending :=
    hending
  have hcwd : s.disk.cwd = "/" := by rw [← hs]; rfl
  have hstderr : s.stderr = [] := by rw [← hs]; rfl
  refine ⟨s, _, hcourse, by rw [← hs]; rfl, by rw [← hs]; rfl, ?_⟩
  have htext : (Report.Style.mk "/" false).render
      (BuildResult.problem ⟨some (.toolFailed .assemble "nasm" (.status 1)), []⟩)
      = "error: assemble failed (nasm): exit status 1\n" := by decide +kernel
  rw [hreport _ rfl, hcwd, hstderr, List.nil_append, ← htext]
  rfl

end Command

end StackLang
