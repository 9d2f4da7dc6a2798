import StackLang.Proofs.Simulation

/-!
# What generated code does

For every program that the stages accept, the code that is generated for it does what the program
means.

- `compile_eq_ok_iff`: a source is compiled exactly when its tokens pass the stages.
- `Codegen.sound_of_generate`: code is generated for programs with sound literals only.
- `Codegen.generate_simulates`: its runs show what the runs of the program show.
-/

set_option autoImplicit false

namespace StackLang

theorem Check.run_of_steps {prog : Program} {stack : Stack} (h : Check.steps prog [] = .ok stack) :
    Check.run prog = .ok ⟨stack, Check.statics prog⟩ := by
  rw [Check.run, h]
  rfl

theorem Check.statics_of_run {prog : Program} {analysis : Analysis}
    (h : Check.run prog = .ok analysis) : analysis.statics = Check.statics prog := by
  obtain ⟨stack, -, rfl⟩ := Failure.of_map_ok h
  rfl

/-! ## Stages -/

/-- What is compiled comes from its tokens, stage by stage. -/
structure Compiled.Made (size : Int) (r : Compiled) : Prop where
  program : Program.ofTokens r.tokens = .ok r.program
  analysis : Check.run r.program = .ok r.analysis
  blocks : Blocks.resolve r.program = .ok r.blocks
  artifact : Codegen.generate r.program r.blocks r.analysis size = .ok r.artifact
  verified : Assembly.verify r.artifact.render = none

theorem Compiled.Made.indexed {size : Int} {r : Compiled} (h : r.Made size) : r.program.Indexed :=
  fun _ _ hop => Program.index_ofTokens h.program hop

theorem compileTokens_eq_ok_iff {file : Text} {size : Int} {tokens : List Token} {r : Compiled} :
    compileTokens file size tokens = .ok r ↔ r.tokens = tokens ∧ r.Made size := by
  constructor
  · intro h
    unfold compileTokens at h
    simp only [bind, Except.bind] at h
    split at h
    · cases h
    rename_i prog hp
    split at h
    · cases h
    rename_i analysis hc
    split at h
    · cases h
    rename_i table hr
    split at h
    · cases h
    rename_i a hg
    split at h
    · cases h
    rename_i hv
    cases h
    exact ⟨rfl, hp, hc, hr, hg, hv⟩
  · rintro ⟨rfl, h⟩
    simp only [compileTokens, h.program, h.analysis, h.blocks, h.artifact, h.verified, bind, Except.bind]

theorem compile_eq_ok_iff {lib : Library} {file source : Text} {size : Int} {r : Compiled} :
    compile lib file source size = .ok r ↔
      (Reading.source lib {} file source).1 = .ok r.tokens ∧ r.Made size := by
  unfold compile
  cases (Reading.source lib {} file source).1 with
  | error e => simp
  | ok tokens => rw [compileTokens_eq_ok_iff, Except.ok.injEq, eq_comm]

/-- Tokens that the stages before the code accept are compiled, to the layout of their program. -/
theorem compile_eq_layout (lib : Library) {file source : Text} {tokens : List Token} {prog : Program}
    {analysis : Analysis} {table : BlockTable}
    (ht : (Reading.source lib {} file source).1 = .ok tokens)
    (hp : Program.ofTokens tokens = .ok prog) (hc : Check.run prog = .ok analysis)
    (hr : Blocks.resolve prog = .ok table) (size : Int) :
    compile lib file source size =
      .ok ⟨tokens, prog, analysis, table, Codegen.layout prog table (Codegen.bufferSizeFor size)⟩ := by
  have hs : prog.Sound :=
    (Program.delivers_ofTokens ((Reading.delivers_source lib file source).of_ok ht)).of_ok hp
  have hi : prog.Indexed := fun i op hop => Program.index_ofTokens hp hop
  have hstatics := Check.statics_of_run hc
  obtain ⟨a, hg, -, -, hv⟩ := generate_accepted hs hi hr hstatics size
  obtain rfl := Except.ok.inj (hg.symm.trans (Codegen.generate_eq_layout hs hi hr hstatics size))
  exact compile_eq_ok_iff.2 ⟨ht, hp, hc, hr, hg, hv⟩

theorem exists_compile (lib : Library) {file source : Text} {tokens : List Token} {prog : Program}
    {analysis : Analysis} {table : BlockTable}
    (ht : (Reading.source lib {} file source).1 = .ok tokens)
    (hp : Program.ofTokens tokens = .ok prog) (hc : Check.run prog = .ok analysis)
    (hr : Blocks.resolve prog = .ok table) (size : Int) :
    ∃ a, compile lib file source size = .ok ⟨tokens, prog, analysis, table, a⟩ :=
  ⟨_, compile_eq_layout lib ht hp hc hr size⟩

/-- A source without macros and includes is its tokens. -/
theorem source_of_tokens {lib : Library} {file source : Text} {tokens : List Token}
    (hl : Lexer.tokens file source = .ok tokens)
    (hplain : ∀ t ∈ tokens, t.isKeyword "MACRO" = false ∧ t.isKeyword "INCLUDE" = false) :
    (Reading.source lib {} file source).1 = .ok tokens := by
  simp only [Reading.source, hl, Reading.splice_plain lib _ _ _ hplain]

namespace Codegen

open Assembly Machine

/-! ## Soundness from success -/

section
variable {prog : Program} {table : BlockTable} {analysis : Analysis} {size : Int}

theorem exists_emit {ops : Program} {a a' : Artifact}
    (h : ops.foldlM (emit prog table analysis size) a = .ok a') {op : Operation} (ho : op ∈ ops) :
    ∃ b b', emit prog table analysis size b op = .ok b' := by
  induction ops generalizing a with
  | nil => cases ho
  | cons o ops ih =>
    rw [List.foldlM_cons] at h
    cases hb : emit prog table analysis size a o with
    | error e => simp [hb, bind, Except.bind] at h
    | ok b =>
      rw [hb] at h
      rcases List.mem_cons.1 ho with rfl | ho
      · exact ⟨a, b, hb⟩
      · exact ih h ho

theorem exists_of_literal {α : Type} {op : Operation} {x : Except Literal.Fault α} {v : α}
    (h : literal op x = .ok v) : x = .ok v := by
  cases x with
  | error e => cases h
  | ok v => cases h; rfl

/-- An operation that is emitted has a sound literal, if any. -/
theorem sound_of_emit {op : Operation} {a a' : Artifact} (hrec : Recorded analysis op)
    (h : emit prog table analysis size a op = .ok a') : op.Sound := by
  unfold emit at h
  split at h
  · cases h
  · rename_i b hdata
    unfold Recorded at hrec
    unfold declareData at hdata
    unfold Operation.Sound
    cases ha : op.action with
    | keyword k => trivial
    | pushInt => trivial
    | pushString | pushCString =>
      simp only [Operation.symbol?, ha, hrec, Check.dataKind?, Option.map_some, declareKind] at hdata
      split at hdata
      · cases hdata
      · exact ⟨_, exists_of_literal (by assumption)⟩
    | pushArray =>
      simp only [Operation.symbol?, ha, hrec, Check.dataKind?, Option.map_some, declareKind] at hdata
      split at hdata
      · cases hdata
      · exact ⟨_, exists_of_literal (by assumption)⟩
    | primitive p =>
      cases p with
      | unassigned n => simp [code, ha, primitive, Except.map] at h
      | _ => trivial
    | unassigned n => simp [code, ha, Except.map] at h

end

theorem sound_of_generate {prog : Program} (hi : prog.Indexed) {table : BlockTable}
    {analysis : Analysis} (ha : analysis.statics = Check.statics prog) {wish : Int} {a : Artifact}
    (h : generate prog table analysis wish = .ok a) : prog.Sound := by
  intro op ho
  unfold generate at h
  cases hf : prog.foldlM (emit prog table analysis (bufferSizeFor wish)) start with
  | error e => simp [hf, Except.map] at h
  | ok b =>
    obtain ⟨b, b', hb⟩ := exists_emit hf ho
    exact sound_of_emit (recorded_of_statics hi ha ho) hb

/-- What is generated for a program of tokens is the layout of its tree. -/
theorem built_of_generate {tokens : List Token} {prog : Program} {analysis : Analysis}
    {table : BlockTable} {wish : Int} {a : Artifact} (hprog : Program.ofTokens tokens = .ok prog)
    (hcheck : Check.run prog = .ok analysis) (hblocks : Blocks.resolve prog = .ok table)
    (hgen : generate prog table analysis wish = .ok a) (hsize : a.code.size < 2 ^ 64)
    (hfits : ∀ op ∈ prog, op.action = .pushString →
      ∀ bytes, Literal.unquote op.token.text = .ok bytes → bytes.length < 2 ^ 31) :
    ∃ c : BlockTree.Code false, c.flatten = prog ∧ a = layout c.flatten table (bufferSizeFor wish) ∧
      Built c table (bufferSizeFor wish) := by
  have hi : prog.Indexed := fun i op hop => Program.index_ofTokens hprog hop
  have hstatics := Check.statics_of_run hcheck
  have hs := sound_of_generate hi hstatics hgen
  obtain ⟨c, rfl⟩ := Blocks.exists_flatten_of_resolve hi hblocks
  obtain rfl := Except.ok.inj (hgen.symm.trans (generate_eq_layout hs hi hblocks hstatics wish))
  exact ⟨c, rfl, rfl, hi, hs, hblocks, hsize, hfits⟩

/-- **Generated code does what the program means.** The machine comes to the operations of the program
in the order of its tree, with the same words on the stack, in runs of every length; it ends where the
program ends, and faults where a division does. While the program does not run out of operands, no
instruction goes past the bottom of the stack. -/
theorem generate_simulates {tokens : List Token} {prog : Program} {analysis : Analysis}
    {table : BlockTable} {wish : Int} {a : Artifact} (hprog : Program.ofTokens tokens = .ok prog)
    (hcheck : Check.run prog = .ok analysis) (hblocks : Blocks.resolve prog = .ok table)
    (hgen : generate prog table analysis wish = .ok a) (hsize : a.code.size < 2 ^ 64)
    (hfits : ∀ op ∈ prog, op.action = .pushString →
      ∀ bytes, Literal.unquote op.token.text = .ok bytes → bytes.length < 2 ^ 31) :
    ∃ c : BlockTree.Code false, c.flatten = prog ∧
      ∀ (w : World) (room : Nat) (d : Data), w.Sane room → d.regs .rsp = w.base →
        d.mem.load 8 w.base = w.argc → ∃ s, boot a.code.toList d = some s ∧
          ∀ n, (∀ v ∈ (Source.visits w).trace n (Source.start c), v.depth + 16 ≤ room) →
            (∃ k, (visits w prog a.code.toList).trace k s
                = (Source.visits w).trace n (Source.start c) ∧
              ((Source.visits w).after n (Source.start c)).Agrees
                ((visits w prog a.code.toList).after k s)) ∧
            ((Source.visits w).after n (Source.start c) ≠ .failed → ∀ k ≤ n,
              (visits w prog a.code.toList).trace k s
                <+: (Source.visits w).trace n (Source.start c)) := by
  obtain ⟨c, rfl, rfl, hb⟩ := built_of_generate hprog hcheck hblocks hgen hsize hfits
  refine ⟨c, rfl, fun w room d hw hsp hargc => ?_⟩
  obtain ⟨s, hboot, hrun⟩ := answers_run hw hb hsp hargc
  refine ⟨s, hboot, fun n hdepth => ?_⟩
  have h := hrun n hdepth
  exact ⟨h.agrees, fun hne k hk => h.isPrefix hk hne⟩

/-- Surroundings in which system calls return zero and change nothing. -/
def idle : World where
  address t := if t = argsPointer then 0x1000#64 else 0x2000#64
  base := 0x10000#64
  argc := 1#64
  reply _ := some 0#64
  scratch _ := 0#64
  effect _ d := d.mem

theorem idle_sane : idle.Sane 64 where
  below := by decide
  above := by decide
  cell_end := by decide
  apart := .inl (by decide)
  keeps _ _ _ _ := rfl

/-- Registers and memory at the start of a process with one argument. -/
def idleData : Data := ⟨fun _ => idle.base, none, Memory.store (fun _ => 0#8) 8 idle.base 1#64⟩

/-- An operation as its token says. -/
def operation (index : Nat) (kind : TokenKind) (text : Text) (action : Action) : Operation :=
  ⟨index, action, ⟨kind, text, ⟨"a", 1, 1⟩⟩⟩

/-- An operation in the first line of a file. -/
def written (index : Nat) (action : Action) (kind : TokenKind) (text : Text) (col : Nat) :
    Operation := ⟨index, action, ⟨kind, text, ⟨"a", 1, col⟩⟩⟩

/-- Counts down from three, leaves the loop at one, and prints it. -/
def countdown : BlockTree.Code false :=
  .plain ⟨operation 0 .integer "3" .pushInt, rfl⟩ <|
  .loop ⟨⟨operation 1 .keyword "WHILE" (.keyword .whileKw), rfl⟩,
      [⟨operation 2 .word "DUP" (.primitive .dup), rfl⟩],
      ⟨operation 3 .keyword "DO" (.keyword .doKw), rfl⟩⟩
    (.plain ⟨operation 4 .integer "1" .pushInt, rfl⟩ <|
     .plain ⟨operation 5 .word "MINUS" (.primitive .minus), rfl⟩ <|
     .plain ⟨operation 6 .word "DUP" (.primitive .dup), rfl⟩ <|
     .plain ⟨operation 7 .integer "1" .pushInt, rfl⟩ <|
     .plain ⟨operation 8 .word "EQ" (.primitive .eq), rfl⟩ <|
     .cond ⟨⟨operation 9 .keyword "IF" (.keyword .ifKw), rfl⟩, [],
         ⟨operation 10 .keyword "DO" (.keyword .doKw), rfl⟩⟩
       (.leave ⟨operation 11 .keyword "BREAK" (.keyword .breakKw), rfl⟩ .nil)
       (.close ⟨operation 12 .keyword "ENDIF" (.keyword .endifKw), rfl⟩) .nil)
    ⟨operation 13 .keyword "DONE" (.keyword .doneKw), rfl⟩ <|
  .plain ⟨operation 14 .word "PRINT_INT" (.primitive .printInt), rfl⟩ .nil

theorem generate_simulates_countdown : ∃ analysis table a s k,
    Program.ofTokens (countdown.flatten.map (·.token)) = .ok countdown.flatten ∧
    Check.run countdown.flatten = .ok analysis ∧ Blocks.resolve countdown.flatten = .ok table ∧
    generate countdown.flatten table analysis 0 = .ok a ∧ boot a.code.toList idleData = some s ∧
    (visits idle countdown.flatten a.code.toList).trace k s
      = (Source.visits idle).trace 24 (Source.start countdown) ∧
    (visits idle countdown.flatten a.code.toList).after k s = .ended := by
  have hp : Program.ofTokens (countdown.flatten.map (·.token)) = .ok countdown.flatten := by
    decide +kernel
  have hsound : Program.Sound countdown.flatten := by
    simp [Program.Sound, countdown, BlockTree.Code.flatten, BlockTree.Chain.flatten,
      BlockTree.Head.ops, operation, Operation.Sound]
  have hi : Program.Indexed countdown.flatten := by decide
  have hgen := generate_eq_layout hsound hi rfl (Check.statics_of_run rfl) 0
  have hnone : ∀ op ∈ countdown.flatten, op.action ≠ .pushString := by decide
  obtain ⟨c, hc, hruns⟩ := generate_simulates hp rfl rfl hgen (by decide +kernel)
    fun op ho ha => absurd ha (hnone op ho)
  obtain rfl := BlockTree.Code.flatten_inj hc
  obtain ⟨s, hboot, hrun⟩ := hruns idle 64 idleData idle_sane rfl
    (Memory.load_store (n := 8) _ (by decide) _ _)
  have hended : (Source.visits idle).after 24 (Source.start countdown) = .ended := rfl
  obtain ⟨⟨k, htrace, hagrees⟩, -⟩ := hrun 24 (by decide +kernel)
  rw [hended] at hagrees
  exact ⟨_, _, _, s, k, hp, rfl, rfl, hgen, hboot, htrace, hagrees.eq_ended⟩

end Codegen

end StackLang
