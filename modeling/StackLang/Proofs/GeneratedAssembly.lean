import Mathlib.Data.List.Perm.Basic
import StackLang.Proofs.ArtifactClosure
import StackLang.Proofs.BlockErrors
import StackLang.Proofs.Layout

/-!
# Generated assembly is closed

The names that the layout of a program defines are those of the frame and, for each operation, those
of its data and of its labels: all different. Its lines name nothing else, since jumps go to
operations that have a label. So the assembly of an accepted program passes its check, and compiling
fails only for reasons that lie in the source.

- `programNames`: what the assembly of a program defines.
- `layout_sound`, `layout_closed`: its lines can be read, and its names are in order.
- `compile_complete`: compiling succeeds when the stages before the code do.
-/

set_option autoImplicit false

namespace StackLang.Codegen

open Assembly Assembly.Verify

/-! ## The names of a program's code -/

/-- The labels of an operation. -/
def labelNames (op : Operation) : List Name :=
  match op.action with
  | .keyword k => if BlockTree.isLanding (.keyword k) then [.indexed (.mark k) op.place] else []
  | .primitive .pow => [.power false op.place, .power true op.place]
  | _ => []

/-- The names that belong to an operation. -/
def opNames (op : Operation) : List Name := declaredNames op ++ labelNames op

/-- The names that the frame defines in the code. -/
def frameNames : List Name := [.frame .printInt, .frame .digits, .frame .write, .frame .start]

/-- What the assembly of a program defines. -/
def programNames (prog : Program) : List Name :=
  .frame .argsPointer :: frameNames ++ prog.flatMap opNames

theorem mem_labelNames {op : Operation} {n : Name} (h : n ∈ labelNames op) :
    n.place = some op.place ∧ n.IsGlobal := by
  unfold labelNames at h
  split at h
  · split at h
    · rw [List.mem_singleton.1 h]
      simp [Name.place, Name.IsGlobal]
    · cases h
  · simp only [List.mem_cons, List.not_mem_nil, or_false] at h
    rcases h with rfl | rfl <;> simp [Name.place, Name.IsGlobal]
  · cases h

theorem nodup_opNames (op : Operation) : (opNames op).Nodup := by
  refine List.nodup_append.2 ⟨nodup_declaredNames op, ?_, ?_⟩
  · unfold labelNames
    split
    · split <;> simp
    · simp
    · exact List.nodup_nil
  · -- only pushes and inputs have data, and none of them has a label
    unfold declaredNames labelNames
    cases op.action with
    | primitive p => cases p <;> simp
    | _ => simp

theorem nodup_programNames {prog : Program} (hi : prog.Indexed) : (programNames prog).Nodup := by
  have hplace : ∀ op, ∀ n ∈ opNames op, n.place = some op.place := by
    intro op n hn
    rcases List.mem_append.1 hn with hn | hn
    · exact (mem_declaredNames hn).1
    · exact (mem_labelNames hn).1
  refine List.nodup_append.2 ⟨by decide, nodup_flatMap_names hi nodup_opNames hplace, ?_⟩
  rintro n hn m hm rfl
  obtain ⟨op, -, hm⟩ := List.mem_flatMap.1 hm
  have hnone : ∀ n ∈ .frame .argsPointer :: frameNames, n.place = none := by decide
  have hsome := hplace op n hm
  rw [hnone n hn] at hsome
  cases hsome

theorem mem_programNames_of_op {prog : Program} {op : Operation} (ho : op ∈ prog) {n : Name}
    (hn : n ∈ opNames op) : n ∈ programNames prog :=
  List.mem_append_right _ (List.mem_flatMap.2 ⟨op, ho, hn⟩)

/-! ## Lines of templates -/

/-- Lines of labels and instructions without characters. -/
def isSimple : Line → Bool
  | .label _ => true
  | .instruction i => i.operands.all fun o => o.quoted.isEmpty
  | _ => false

theorem sound_of_isSimple {l : Line} (h : isSimple l = true) (hl : ∀ s ∈ l.labels, IsName s)
    (hs : ∀ s ∈ l.symbols, IsName s) : l.Sound := by
  cases l with
  | label name => exact hl name (by simp [Line.labels])
  | instruction i =>
    intro o ho
    have hq : o.quoted = [] := by simpa using List.all_eq_true.1 h o ho
    refine ⟨fun s hm => hs s (List.mem_flatMap.2 ⟨o, ho, hm⟩), ?_⟩
    rw [hq]
    decide
  | verbatim t | comment t | exported t | blank => cases h

/-- The symbols that the lines of a primitive name. -/
def primitiveSymbols (index : Int) : Primitive → List Text
  | .pow => ["POW_" ++ Text.ofInt index ++ "_done", "POW_" ++ Text.ofInt index ++ "_loop"]
  | .printInt => [printInt]
  | .input => [(Symbol.input index).name, (Symbol.input index).name]
  | .argc | .argv => [argsPointer]
  | _ => []

/-- The labels in the lines of a primitive. -/
def primitiveLabels (index : Int) : Primitive → List Text
  | .pow => ["POW_" ++ Text.ofInt index ++ "_loop", "POW_" ++ Text.ofInt index ++ "_done"]
  | _ => []

theorem primitive_lines {size index : Int} {p : Primitive} {ls : List Line}
    (h : primitive size index p = some ls) :
    ls.all isSimple = true ∧ ls.flatMap Line.labels = primitiveLabels index p ∧
      ls.flatMap Line.symbols = primitiveSymbols index p := by
  cases p with
  | syscall args =>
    simp only [primitive, Option.some.injEq] at h
    subst h
    have hpops : ∀ rs : List Register, (rs.map pop).all isSimple = true ∧
        (rs.map pop).flatMap Line.labels = [] ∧ (rs.map pop).flatMap Line.symbols = [] := by
      intro rs
      induction rs with
      | nil => exact ⟨rfl, rfl, rfl⟩
      | cons r rs ih => exact ih
    obtain ⟨h1, h2, h3⟩ := hpops (argumentRegisters.take args).reverse
    refine ⟨?_, ?_, ?_⟩
    · simp only [List.all_append, h1]
      rfl
    · simp only [List.flatMap_append, h2]
      rfl
    · simp only [List.flatMap_append, h3]
      rfl
  | unassigned code => cases h
  | _ =>
    cases h
    exact ⟨rfl, rfl, rfl⟩

/-- What holds of the lines of an operation: they are simple, their labels are the operation's, and
they name only what the program defines. -/
structure TemplateOf (prog : Program) (op : Operation) (ls : List Line) : Prop where
  simple : ∀ l ∈ ls, isSimple l = true
  labels : ls.flatMap Line.labels = (labelNames op).map Name.text
  symbols : ∀ s ∈ ls.flatMap Line.symbols, ∃ n ∈ programNames prog, n.IsGlobal ∧ s = n.text

section
variable {c : BlockTree.Code false} {table : BlockTable}

/-- The label of a landing is defined. -/
theorem label_landing (hc : Program.Indexed c.flatten) {t : Operation} (ht : t ∈ c.flatten)
    (hl : BlockTree.isLanding t.action = true) :
    ∃ n ∈ labelNames t, n.IsGlobal ∧ t.label = n.text := by
  cases ha : t.action with
  | keyword k =>
    rw [ha] at hl
    refine ⟨.indexed (.mark k) t.place, ?_, by simp [Name.IsGlobal], ?_⟩
    · simp [labelNames, ha, hl]
    · exact Name.text_mark ha (index_eq_place hc ht)
  | pushInt | pushString | pushCString | pushArray | primitive p | unassigned n =>
    rw [ha] at hl
    cases hl

/-- Lines that name nothing. -/
theorem templateOf_none {op : Operation} {ls : List Line} (hsimple : ls.all isSimple = true)
    (hlabels : ls.flatMap Line.labels = (labelNames op).map Name.text)
    (hsyms : ls.flatMap Line.symbols = []) : TemplateOf c.flatten op ls :=
  ⟨List.all_eq_true.1 hsimple, hlabels, by simp [hsyms]⟩

/-- Lines that name one symbol. -/
theorem templateOf_one {op : Operation} {ls : List Line} {s : Text}
    (hsimple : ls.all isSimple = true)
    (hlabels : ls.flatMap Line.labels = (labelNames op).map Name.text)
    (hsyms : ls.flatMap Line.symbols = [s])
    (hname : ∃ n ∈ programNames c.flatten, n.IsGlobal ∧ s = n.text) : TemplateOf c.flatten op ls :=
  ⟨List.all_eq_true.1 hsimple, hlabels, by simpa [hsyms] using hname⟩

theorem templateOf_primitive (hc : Program.Indexed c.flatten) {op : Operation}
    (ho : op ∈ c.flatten) {p : Primitive} (ha : op.action = .primitive p) {size : Int}
    {ls : List Line} (h : primitive size op.index p = some ls) : TemplateOf c.flatten op ls := by
  obtain ⟨hsimple, hlabels, hsyms⟩ := primitive_lines h
  have hidx := index_eq_place hc ho
  have hown : ∀ n ∈ opNames op, n ∈ programNames c.flatten :=
    fun n hn => mem_programNames_of_op ho hn
  refine ⟨List.all_eq_true.1 hsimple, ?_, fun s hs => ?_⟩
  · rw [hlabels, hidx]
    cases p with
    | pow => simp only [primitiveLabels, labelNames, ha, Name.text_power, List.map_cons, List.map_nil]
    | _ => simp [primitiveLabels, labelNames, ha]
  · rw [hsyms, hidx] at hs
    cases p with
    | pow =>
      simp only [primitiveSymbols, Name.text_power, List.mem_cons, List.not_mem_nil, or_false] at hs
      rcases hs with rfl | rfl
      · exact ⟨_, hown (.power true op.place) (by simp [opNames, labelNames, ha]),
          by simp [Name.IsGlobal], rfl⟩
      · exact ⟨_, hown (.power false op.place) (by simp [opNames, labelNames, ha]),
          by simp [Name.IsGlobal], rfl⟩
    | printInt =>
      rw [List.mem_singleton.1 hs]
      exact ⟨.frame .printInt, by simp [programNames, frameNames], by decide,
        Name.text_frame.2.2.1⟩
    | input =>
      have hs : s = (Symbol.input op.place).name := by simpa [primitiveSymbols] using hs
      exact ⟨_, hown (.indexed .input op.place) (by simp [opNames, declaredNames, ha]),
        by simp [Name.IsGlobal], hs.trans (Name.text_symbol op.place).2.2.2⟩
    | argc | argv =>
      rw [List.mem_singleton.1 hs]
      exact ⟨.frame .argsPointer, by simp [programNames], by decide, Name.text_frame.1⟩
    | _ => cases hs

theorem templateOf_template (hc : Program.Indexed c.flatten)
    (h : Blocks.resolve c.flatten = .ok table) (size : Int) {op : Operation} (ho : op ∈ c.flatten)
    (hs : op.Sound) : TemplateOf c.flatten op (template c.flatten table size op) := by
  have hidx := index_eq_place hc ho
  have hown : ∀ n ∈ opNames op, n ∈ programNames c.flatten :=
    fun n hn => mem_programNames_of_op ho hn
  have hpartner := partner_ok hc h ho
  obtain ⟨hstr, hcstr, harr, -⟩ := Name.text_symbol op.place
  have hcode := code_ok hc h size ho hs
  unfold code at hcode
  generalize template c.flatten table size op = ls at hcode ⊢
  cases ha : op.action with
  | keyword k =>
    rw [ha] at hpartner hcode
    have hmark := Name.text_mark ha hidx
    -- a line that jumps to the partner, and perhaps the operation's own label
    have hjump : BlockTree.hasTarget (.keyword k) = true →
        ∃ t, partner c.flatten table op = .ok t ∧
          ∃ n ∈ programNames c.flatten, n.IsGlobal ∧ t = n.text := by
      intro hk
      obtain ⟨t, ht, hl, hp⟩ := hpartner hk
      obtain ⟨n, hn, hg, he⟩ := label_landing hc ht hl
      exact ⟨t.label, hp, n, mem_programNames_of_op ht (List.mem_append_right _ hn), hg, he⟩
    cases k with
    | ifKw =>
      cases hcode
      refine templateOf_none rfl ?_ rfl
      simp only [labelNames, ha, BlockTree.isLanding]
      rfl
    | whileKw | endifKw =>
      cases hcode
      refine templateOf_none rfl ?_ rfl
      simp only [labelNames, ha, BlockTree.isLanding, if_true, List.map_cons, List.map_nil, ← hmark]
      rfl
    | endKw => exact absurd ha (c.ne_end ho)
    | doneKw | elifKw | elseKw =>
      obtain ⟨t, hp, n, hn, hg, he⟩ := hjump rfl
      simp only [keyword, hp, Except.map, Except.ok.injEq] at hcode
      subst hcode
      refine templateOf_one rfl ?_ rfl ⟨n, hn, hg, he⟩
      simp only [labelNames, ha, BlockTree.isLanding, if_true, List.map_cons, List.map_nil, ← hmark]
      rfl
    | doKw | breakKw =>
      obtain ⟨t, hp, n, hn, hg, he⟩ := hjump rfl
      simp only [keyword, hp, Except.map, Except.ok.injEq] at hcode
      subst hcode
      refine templateOf_one rfl ?_ rfl ⟨n, hn, hg, he⟩
      simp only [labelNames, ha, BlockTree.isLanding]
      rfl
  | pushInt =>
    rw [ha] at hcode
    cases hcode
    have hlabels : (labelNames op).map Name.text = [] := by simp [labelNames, ha]
    unfold pushNumber
    split
    · exact templateOf_none rfl hlabels.symm rfl
    · exact templateOf_none rfl hlabels.symm rfl
  | pushString =>
    rw [ha] at hcode
    unfold Operation.Sound at hs
    rw [ha] at hs
    obtain ⟨data, hd⟩ := hs
    simp only [hd, Except.ok.injEq] at hcode
    subst hcode
    have hlabels : (labelNames op).map Name.text = [] := by simp [labelNames, ha]
    refine templateOf_one rfl hlabels.symm rfl ⟨.indexed .string op.place, hown _ ?_, ?_, ?_⟩
    · simp [opNames, declaredNames, ha]
    · simp [Name.IsGlobal]
    · rw [hidx, hstr]
  | pushCString =>
    rw [ha] at hcode
    cases hcode
    have hlabels : (labelNames op).map Name.text = [] := by simp [labelNames, ha]
    refine templateOf_one rfl hlabels.symm rfl ⟨.indexed .cstring op.place, hown _ ?_, ?_, ?_⟩
    · simp [opNames, declaredNames, ha]
    · simp [Name.IsGlobal]
    · rw [hidx, hcstr]
  | pushArray =>
    rw [ha] at hcode
    unfold Operation.Sound at hs
    rw [ha] at hs
    obtain ⟨es, he⟩ := hs
    cases hcode
    have hlabels : (labelNames op).map Name.text = [] := by simp [labelNames, ha]
    refine templateOf_one rfl hlabels.symm rfl ⟨.indexed .array op.place, hown _ ?_, ?_, ?_⟩
    · simp [opNames, declaredNames, ha, he]
    · simp [Name.IsGlobal]
    · rw [hidx, harr]
  | primitive p =>
    rw [ha] at hcode
    cases hp : primitive size op.index p with
    | none => simp [hp] at hcode
    | some ls' =>
      simp only [hp, Except.ok.injEq] at hcode
      exact hcode ▸ templateOf_primitive hc ho ha hp
  | unassigned code => simp [Operation.Sound, ha] at hs

end

/-! ## Data -/

/-- The names of an operation's constant data, in the order of its lines. -/
def dataNames (op : Operation) : List Name :=
  match op.action with
  | .pushString => [.indexed .string op.place]
  | .pushCString => [.indexed .cstring op.place]
  | .pushArray =>
    match Literal.elements op.token.text with
    | .ok es => (List.range es.length).map (.element op.place) ++ [.indexed .array op.place]
    | .error _ => []
  | _ => []

/-- The names of the memory that an operation reserves. -/
def reservedNames (op : Operation) : List Name :=
  match op.action with
  | .primitive .input => [.indexed .input op.place]
  | _ => []

theorem declaredNames_perm (op : Operation) :
    (dataNames op ++ reservedNames op).Perm (declaredNames op) := by
  unfold dataNames reservedNames declaredNames
  cases op.action with
  | pushArray =>
    cases Literal.elements op.token.text with
    | error e => exact .refl _
    | ok es => simp
  | primitive p => cases p <;> exact .refl _
  | _ => exact .refl _

section
variable {op : Operation} (hidx : op.index = op.place) (hs : op.Sound)
include hidx hs

theorem syms_dataLines : (dataLines op).map DataLine.sym = (dataNames op).map Name.text := by
  obtain ⟨hstr, hcstr, harr, -⟩ := Name.text_symbol op.place
  unfold Operation.Sound at hs
  unfold dataLines dataNames
  rw [hidx]
  cases ha : op.action with
  | pushString =>
    rw [ha] at hs
    obtain ⟨data, hd⟩ := hs
    simp [hd, hstr, DataLine.sym]
  | pushCString =>
    rw [ha] at hs
    obtain ⟨data, hd⟩ := hs
    simp [hd, hcstr, DataLine.sym]
  | pushArray =>
    rw [ha] at hs
    obtain ⟨es, he⟩ := hs
    simp [he, harr, syms_elementLines, elementSymbols_eq, Name.text_element, DataLine.sym]
  | _ => rfl

theorem targets_dataLines {l : DataLine} (hl : l ∈ dataLines op) :
    ∀ s ∈ l.targets, ∃ n ∈ dataNames op, s = n.text := by
  obtain ⟨-, -, harr, -⟩ := Name.text_symbol op.place
  have hbytes : ∀ {sym : Text} {i : Nat} {es : List Text}, l ∈ elementLines sym i es →
      l.targets = [] := by
    intro sym i es h
    induction es generalizing i with
    | nil => cases h
    | cons e es ih =>
      rcases List.mem_cons.1 h with rfl | h
      · rfl
      · exact ih h
  unfold Operation.Sound at hs
  unfold dataLines at hl
  unfold dataNames
  rw [hidx] at hl
  cases ha : op.action with
  | pushString =>
    rw [ha] at hs hl
    obtain ⟨data, hd⟩ := hs
    simp only [hd, List.mem_singleton] at hl
    simp [hl, DataLine.targets]
  | pushCString =>
    rw [ha] at hs hl
    obtain ⟨data, hd⟩ := hs
    simp only [hd, List.mem_singleton] at hl
    simp [hl, DataLine.targets]
  | pushArray =>
    rw [ha] at hs hl
    obtain ⟨es, he⟩ := hs
    simp only [he, harr, List.mem_append, List.mem_singleton] at hl
    rcases hl with hl | rfl
    · simp [hbytes hl]
    · intro s hm
      obtain ⟨j, hj, rfl⟩ := List.mem_map.1 hm
      refine ⟨.element op.place j, ?_, Name.text_element op.place j⟩
      simp only [he]
      exact List.mem_append_left _ (List.mem_map_of_mem hj)
  | keyword k | pushInt | primitive p | unassigned n =>
    rw [ha] at hl
    cases hl

end

theorem syms_reservations {op : Operation} (hidx : op.index = op.place) (size : Int) :
    (reservations size op).map Reservation.sym = (reservedNames op).map Name.text := by
  unfold reservations reservedNames
  rw [hidx]
  cases op.action with
  | primitive p => cases p <;> simp [Name.text_symbol]
  | _ => rfl

theorem mem_dataNames {op : Operation} {n : Name} (h : n ∈ dataNames op) : n ∈ declaredNames op :=
  (declaredNames_perm op).subset (List.mem_append_left _ h)

theorem mem_reservedNames {op : Operation} {n : Name} (h : n ∈ reservedNames op) :
    n ∈ declaredNames op := (declaredNames_perm op).subset (List.mem_append_right _ h)

/-! ## The layout is sound -/

theorem oneLine_remark (op : Operation) : Text.byte '\n' ∉ remark op := by
  have hindex := (isOperand_ofInt op.index).oneLine
  have hblank : Text.byte '\n' ∉ (" " : Text) := by decide
  have htext : Text.byte '\n' ∉ Text.squeeze op.token.text := Text.newline_notMem_squeeze _
  simpa only [remark, List.mem_append, not_or] using And.intro (And.intro hindex hblank) htext

section
variable {c : BlockTree.Code false} {table : BlockTable} (hc : Program.Indexed c.flatten)
  (h : Blocks.resolve c.flatten = .ok table) (hs : Program.Sound c.flatten) (size : Int)
include hc h hs

theorem layout_sound : (layout c.flatten table size).Sound := by
  refine ⟨fun l hl => ?_, fun r hr => ?_, fun l hl => ?_⟩
  · obtain ⟨op, ho, hl⟩ := List.mem_flatMap.1 (by simpa [layout] using hl)
    have hidx := index_eq_place hc ho
    have hname : ∀ n ∈ dataNames op, IsName n.text :=
      fun n hn => Name.isName (mem_declaredNames (mem_dataNames hn)).2
    refine ⟨?_, fun s hm => ?_⟩
    · have hmem : l.sym ∈ (dataLines op).map DataLine.sym := List.mem_map_of_mem hl
      rw [syms_dataLines hidx (hs op ho)] at hmem
      obtain ⟨n, hn, he⟩ := List.mem_map.1 hmem
      exact he ▸ hname n hn
    · obtain ⟨n, hn, rfl⟩ := targets_dataLines hidx (hs op ho) hl s hm
      exact hname n hn
  · have hr : r = ⟨argsPointer, 8⟩ ∨ r ∈ c.flatten.flatMap (reservations size) := by
      simpa [layout] using hr
    rcases hr with rfl | hr
    · change IsName argsPointer
      decide
    · obtain ⟨op, ho, hr⟩ := List.mem_flatMap.1 hr
      have hmem : r.sym ∈ (reservations size op).map Reservation.sym := List.mem_map_of_mem hr
      rw [syms_reservations (index_eq_place hc ho)] at hmem
      obtain ⟨n, hn, he⟩ := List.mem_map.1 hmem
      exact he ▸ Name.isName (mem_declaredNames (mem_reservedNames hn)).2
  · have hl : l ∈ preamble ∨ l ∈ c.flatten.flatMap (opLines c.flatten table size) ∨ l ∈ epilogue := by
      simpa [layout] using hl
    rcases hl with hl | hl | hl
    · have hall : ∀ l ∈ preamble, l.Sound := by decide +kernel
      exact hall l hl
    · obtain ⟨op, ho, hl⟩ := List.mem_flatMap.1 hl
      rcases List.mem_cons.1 hl with rfl | hl
      · exact oneLine_remark op
      · have ht := templateOf_template hc h size ho (hs op ho)
        refine sound_of_isSimple (ht.simple l hl) (fun s hm => ?_) fun s hm => ?_
        · have hmem : s ∈ (template c.flatten table size op).flatMap Line.labels :=
            List.mem_flatMap.2 ⟨l, hl, hm⟩
          rw [ht.labels] at hmem
          obtain ⟨n, hn, rfl⟩ := List.mem_map.1 hmem
          exact Name.isName (mem_labelNames hn).2
        · obtain ⟨n, -, hg, rfl⟩ := ht.symbols s (List.mem_flatMap.2 ⟨l, hl, hm⟩)
          exact Name.isName hg
    · have hall : ∀ l ∈ epilogue, l.Sound := by decide
      exact hall l hl

end

/-! ## The layout is closed -/

theorem qualified_global {ns : List Name} (h : ∀ n ∈ ns, n.IsGlobal) (scope : Text) :
    qualified scope (ns.map Name.text) = ns.map Name.text := by
  induction ns generalizing scope with
  | nil => rfl
  | cons n ns ih =>
    obtain ⟨hn, hns⟩ := List.forall_mem_cons.1 h
    rw [List.map_cons, qualified, (Name.qualify_text hn scope).1, ih hns]

theorem codeUses_append (scope : Text) (ls ms : List Line) : codeUses scope (ls ++ ms) =
    codeUses scope ls ++ codeUses ((ls.flatMap Line.labels).foldl scopeAfter scope) ms := by
  induction ls generalizing scope with
  | nil => rfl
  | cons l ls ih => simp [codeUses, ih]

/-- What lines use that name global symbols only. -/
theorem mem_codeUses_global {ls : List Line}
    (h : ∀ s ∈ ls.flatMap Line.symbols, ∃ n : Name, n.IsGlobal ∧ s = n.text) {scope s : Text}
    (hs : s ∈ codeUses scope ls) : s ∈ ls.flatMap Line.symbols := by
  induction ls generalizing scope with
  | nil => cases hs
  | cons l ls ih =>
    rw [List.flatMap_cons] at h ⊢
    obtain ⟨hl, hls⟩ := List.forall_mem_append.1 h
    rcases List.mem_append.1 hs with hs | hs
    · obtain ⟨t, ht, rfl⟩ := List.mem_map.1 hs
      obtain ⟨n, hn, rfl⟩ := hl t ht
      rw [(Name.qualify_text hn _).1]
      exact List.mem_append_left _ ht
    · exact List.mem_append_right _ (ih hls hs)

theorem mem_dataUses_global {ls : List DataLine}
    (h : ∀ l ∈ ls, ∀ s ∈ l.targets, ∃ n : Name, n.IsGlobal ∧ s = n.text) {scope s : Text}
    (hs : s ∈ dataUses scope ls) : ∃ l ∈ ls, s ∈ l.targets := by
  induction ls generalizing scope with
  | nil => cases hs
  | cons l ls ih =>
    obtain ⟨hl, hls⟩ := List.forall_mem_cons.1 h
    rcases List.mem_append.1 hs with hs | hs
    · obtain ⟨t, ht, rfl⟩ := List.mem_map.1 hs
      obtain ⟨n, hn, rfl⟩ := hl t ht
      rw [(Name.qualify_text hn _).1]
      exact ⟨l, by simp, ht⟩
    · obtain ⟨m, hm, ht⟩ := ih hls hs
      exact ⟨m, List.mem_cons_of_mem _ hm, ht⟩

/-- The labels of the frame, in any scope. -/
theorem qualified_preamble (scope : Text) (ls : List Text) :
    qualified scope (preamble.flatMap Line.labels ++ ls)
      = frameNames.map Name.text ++ qualified (Name.frame .start).text ls := rfl

/-- What the frame uses, in any scope. -/
theorem codeUses_preamble (scope : Text) : ∀ s ∈ codeUses scope preamble,
    ∃ n ∈ (.frame .argsPointer :: frameNames : List Name), s = n.text := by
  have huses : codeUses scope preamble = codeUses [] preamble := rfl
  rw [huses]
  decide

theorem flatMap_map_congr {α : Type} {prog : Program} {f : Operation → List α} {sym : α → Text}
    {names : Operation → List Name} (h : ∀ op ∈ prog, (f op).map sym = (names op).map Name.text) :
    (prog.flatMap f).map sym = (prog.flatMap names).map Name.text := by
  rw [List.map_flatMap, List.map_flatMap, List.flatMap_def, List.flatMap_def,
    List.map_congr_left h]

section
variable {c : BlockTree.Code false} {table : BlockTable} (hc : Program.Indexed c.flatten)
  (hs : Program.Sound c.flatten) (size : Int)
include hc hs

theorem dataSymbols_layout : (layout c.flatten table size).dataSymbols =
    (c.flatten.flatMap dataNames ++ .frame .argsPointer :: c.flatten.flatMap reservedNames).map
      Name.text := by
  have hdata : (c.flatten.flatMap dataLines).map DataLine.sym = _ :=
    flatMap_map_congr fun op ho => syms_dataLines (index_eq_place hc ho) (hs op ho)
  have hres : (c.flatten.flatMap (reservations size)).map Reservation.sym = _ :=
    flatMap_map_congr fun op ho => syms_reservations (index_eq_place hc ho) size
  simp only [Artifact.dataSymbols, layout, List.map_cons, hdata, hres, List.map_append,
    ← Name.text_frame.1]

variable (h : Blocks.resolve c.flatten = .ok table)
include h

theorem labels_layout : (layout c.flatten table size).code.toList.flatMap Line.labels =
    preamble.flatMap Line.labels ++ (c.flatten.flatMap labelNames).map Name.text := by
  have hops : ((c.flatten.flatMap fun op =>
      (opLines c.flatten table size op).flatMap Line.labels)).map id = _ :=
    flatMap_map_congr fun op ho => by
      rw [List.map_id]
      exact (templateOf_template hc h size ho (hs op ho)).labels
  rw [List.map_id] at hops
  have hlast : epilogue.flatMap Line.labels = [] := rfl
  simp only [layout, List.flatMap_append, List.flatMap_assoc, hops, hlast, List.append_nil]

/-- **The names that the layout defines** are those of the program. -/
theorem names_layout :
    (layout c.flatten table size).names.Perm ((programNames c.flatten).map Name.text) := by
  have hglobal : ∀ n ∈ c.flatten.flatMap dataNames ++ .frame .argsPointer
      :: c.flatten.flatMap reservedNames, n.IsGlobal := by
    refine List.forall_mem_append.2 ⟨fun n hn => ?_, List.forall_mem_cons.2 ⟨by decide, fun n hn => ?_⟩⟩
    · obtain ⟨op, -, hn⟩ := List.mem_flatMap.1 hn
      exact (mem_declaredNames (mem_dataNames hn)).2
    · obtain ⟨op, -, hn⟩ := List.mem_flatMap.1 hn
      exact (mem_declaredNames (mem_reservedNames hn)).2
  have hlabels : ∀ n ∈ c.flatten.flatMap labelNames, n.IsGlobal := fun n hn => by
    obtain ⟨op, -, hn⟩ := List.mem_flatMap.1 hn
    exact (mem_labelNames hn).2
  rw [Artifact.names, dataSymbols_layout hc hs, labels_layout hc hs size h, qualified_global hglobal,
    qualified_preamble, qualified_global hlabels, ← List.map_append, ← List.map_append]
  refine List.Perm.map _ ?_
  -- collected by section on the left, and by operation on the right
  have hdeclared : (c.flatten.flatMap dataNames ++ c.flatten.flatMap reservedNames).Perm
      (c.flatten.flatMap declaredNames) :=
    (List.flatMap_append_perm _ _ _).trans
      (List.Perm.flatMap_left _ fun op _ => declaredNames_perm op)
  have hall : (c.flatten.flatMap declaredNames ++ c.flatten.flatMap labelNames).Perm
      (c.flatten.flatMap opNames) := List.flatMap_append_perm _ _ _
  have hmiddle : (c.flatten.flatMap dataNames ++ .frame .argsPointer
      :: c.flatten.flatMap reservedNames).Perm
      (.frame .argsPointer :: c.flatten.flatMap declaredNames) :=
    List.perm_middle.trans (hdeclared.cons _)
  have hcode : (c.flatten.flatMap declaredNames ++ (frameNames ++ c.flatten.flatMap labelNames)).Perm
      (frameNames ++ c.flatten.flatMap opNames) := by
    rw [← List.append_assoc]
    refine (List.perm_append_comm.append_right _).trans ?_
    rw [List.append_assoc]
    exact hall.append_left _
  exact (hmiddle.append_right _).trans (hcode.cons _)

/-- **Every name that the layout uses** is one of the program. -/
theorem uses_layout {s : Text} (hu : s ∈ (layout c.flatten table size).uses) :
    ∃ n ∈ programNames c.flatten, s = n.text := by
  rcases List.mem_append.1 hu with hu | hu
  · have hdata : ∀ l ∈ c.flatten.flatMap dataLines, ∀ s ∈ l.targets,
        ∃ n ∈ programNames c.flatten, n.IsGlobal ∧ s = n.text := by
      intro l hl s hm
      obtain ⟨op, ho, hl⟩ := List.mem_flatMap.1 hl
      obtain ⟨n, hn, he⟩ := targets_dataLines (index_eq_place hc ho) (hs op ho) hl s hm
      have hn := mem_dataNames hn
      exact ⟨n, mem_programNames_of_op ho (List.mem_append_left _ hn), (mem_declaredNames hn).2, he⟩
    obtain ⟨l, hl, hm⟩ := mem_dataUses_global (fun l hl s hm => by
      obtain ⟨n, -, hn⟩ := hdata l hl s hm
      exact ⟨n, hn⟩) hu
    obtain ⟨n, hn, -, he⟩ := hdata l hl s hm
    exact ⟨n, hn, he⟩
  · have hcode : (layout c.flatten table size).code.toList
        = preamble ++ (c.flatten.flatMap (opLines c.flatten table size) ++ epilogue) := rfl
    rw [hcode, codeUses_append] at hu
    rcases List.mem_append.1 hu with hu | hu
    · obtain ⟨n, hn, rfl⟩ := codeUses_preamble _ s hu
      exact ⟨n, List.mem_append_left _ hn, rfl⟩
    · have hsyms : ∀ s ∈ (c.flatten.flatMap (opLines c.flatten table size) ++ epilogue).flatMap
          Line.symbols, ∃ n ∈ programNames c.flatten, n.IsGlobal ∧ s = n.text := by
        have hlast : epilogue.flatMap Line.symbols = [] := rfl
        intro s hm
        rw [List.flatMap_append, hlast, List.append_nil, List.flatMap_assoc] at hm
        obtain ⟨op, ho, hm⟩ := List.mem_flatMap.1 hm
        exact (templateOf_template hc h size ho (hs op ho)).symbols s hm
      have hmem := mem_codeUses_global (fun s hm => by
        obtain ⟨n, -, hn⟩ := hsyms s hm
        exact ⟨n, hn⟩) hu
      obtain ⟨n, hn, -, he⟩ := hsyms s hmem
      exact ⟨n, hn, he⟩

/-- **The layout of an accepted program is closed.** -/
theorem layout_closed : (layout c.flatten table size).Closed := by
  have hperm := names_layout hc hs size h
  refine ⟨?_, fun s hu => ?_⟩
  · rw [hperm.nodup_iff]
    exact (nodup_programNames hc).map Name.text_injective
  · obtain ⟨n, hn, rfl⟩ := uses_layout hc hs size h hu
    exact hperm.symm.subset (List.mem_map_of_mem hn)

end

end StackLang.Codegen

namespace StackLang

open Assembly

/-! ## Compiling -/

/-- **Behind the block table nothing fails**: code is generated, and its text is accepted. -/
theorem generate_accepted {prog : Program} (hs : prog.Sound) (hi : prog.Indexed)
    {table : BlockTable} (hr : Blocks.resolve prog = .ok table) {analysis : Analysis}
    (ha : analysis.statics = Check.statics prog) (wish : Int) :
    ∃ a, Codegen.generate prog table analysis wish = .ok a ∧ a.Sound ∧ a.Closed ∧
      verify a.render = none := by
  refine ⟨_, Codegen.generate_eq_layout hs hi hr ha wish, ?_⟩
  obtain ⟨c, rfl⟩ := Blocks.exists_flatten_of_resolve hi hr
  have hsound := Codegen.layout_sound hi hr hs (Codegen.bufferSizeFor wish)
  have hclosed := Codegen.layout_closed hi hs (Codegen.bufferSizeFor wish) hr
  exact ⟨hsound, hclosed, (Artifact.verify_render_iff hsound).2 hclosed⟩

/-- Tokens that are sound fail as operations, in the check of the stack or in their blocks. -/
theorem compileTokens_eq_error {tokens : List Token} (ht : SoundTokens tokens) {file : Text}
    {wish : Int} {f : Failure} (h : compileTokens file wish tokens = .error f) :
    Program.ofTokens tokens = .error f ∨ ∃ prog, Program.ofTokens tokens = .ok prog ∧
      (Check.run prog = .error f ∨ Blocks.resolve prog = .error f) := by
  unfold compileTokens at h
  simp only [bind, Except.bind] at h
  cases hp : Program.ofTokens tokens with
  | error f' =>
    rw [hp] at h
    cases h
    exact .inl rfl
  | ok prog =>
    have hs := (Program.delivers_ofTokens ht).of_ok hp
    refine .inr ⟨prog, rfl, ?_⟩
    simp only [hp] at h
    cases hc : Check.run prog with
    | error f' =>
      rw [hc] at h
      cases h
      exact .inl rfl
    | ok analysis =>
      simp only [hc] at h
      cases hr : Blocks.resolve prog with
      | error f' =>
        rw [hr] at h
        cases h
        exact .inr rfl
      | ok table =>
        have hi : prog.Indexed := fun i op hop => Program.index_ofTokens hp hop
        obtain ⟨a, hg, -, -, hv⟩ :=
          generate_accepted hs hi hr ((Check.delivers_run hs).of_ok hc) wish
        simp only [hr, hg, hv] at h
        cases h

/-- Tokens fail to compile at one of them. -/
theorem refused_of_compileTokens {tokens : List Token} (ht : SoundTokens tokens) {file : Text}
    {wish : Int} {f : Failure} (h : compileTokens file wish tokens = .error f) :
    Program.Misread tokens f ∨
      ∃ t ∈ tokens, f.Blames (Check.errorKinds ++ Blocks.errorKinds) t.loc := by
  have hprog := Program.ends_ofTokens ht
  have hmem : ∀ {prog : Program}, Program.ofTokens tokens = .ok prog → ∀ op ∈ prog,
      op.token ∈ tokens := by
    intro prog hp op hop
    rw [← (hprog.of_ok hp).2]
    exact List.mem_map_of_mem hop
  rcases compileTokens_eq_error ht h with hp | ⟨prog, hp, hc | hr⟩
  · exact .inl (hprog.of_error hp)
  · obtain ⟨op, hop, c, hf, hk⟩ := (Check.ends_run (hprog.of_ok hp).1).of_error hc
    exact .inr ⟨op.token, hmem hp op hop, c, hf, List.mem_append_left _ hk⟩
  · have hi : prog.Indexed := fun i op hop => Program.index_ofTokens hp hop
    obtain ⟨op, hop, c, hf, hk⟩ := (Blocks.ends_resolve (hprog.of_ok hp).1 hi).of_error hr
    exact .inr ⟨op.token, hmem hp op hop, c, hf, List.mem_append_right _ hk⟩

theorem delivers_compileTokens {tokens : List Token} (ht : SoundTokens tokens) (file : Text)
    (wish : Int) : Delivers (fun _ => True) (compileTokens file wish tokens) := by
  cases h : compileTokens file wish tokens with
  | ok r => trivial
  | error f =>
    rcases refused_of_compileTokens ht h with hmis | ⟨t, -, hblame⟩
    · obtain ⟨t, -, hblame⟩ := hmis.blames ht
      exact hblame.expected (by decide)
    · exact hblame.expected (by decide)

/-- **The back end never fails on an accepted program, and its output is closed.** When the tokens,
the operations, the check of the stack and the block table of a source are there, so is its assembly:
every name that is used in it is defined, none twice, data before the code that uses it, and compiling
succeeds with it. So compiling never ends for want of support, nor by an inconsistent text. -/
theorem compile_complete (lib : Library) (file source : Text) (wish : Int) :
    (∀ tokens prog analysis table, (Reading.source lib {} file source).1 = .ok tokens →
      Program.ofTokens tokens = .ok prog → Check.run prog = .ok analysis →
      Blocks.resolve prog = .ok table →
      ∃ a, Codegen.generate prog table analysis wish = .ok a ∧ a.Closed ∧
        verify a.render = none ∧ (∃ ps, ReadAs (textLines a.render) ps ∧ Consistent ps) ∧
        compile lib file source wish = .ok ⟨tokens, prog, analysis, table, a⟩) ∧
    (∀ e, compile lib file source wish = .error (.error e) → e.cause.kind ≠ .notImplemented) ∧
    ∀ name fault, compile lib file source wish ≠ .error (.inconsistent name fault) := by
  have hread := Reading.delivers_source lib file source
  have hdeliver : Delivers (fun _ => True) (compile lib file source wish) := by
    unfold compile
    split
    · rename_i f hf
      exact hread.of_error hf
    · rename_i tokens ht
      exact delivers_compileTokens (hread.of_ok ht) file wish
  refine ⟨?_, fun e he => hdeliver.of_error he, fun name fault hf => hdeliver.of_error hf⟩
  intro tokens prog analysis table ht hp hc hr
  have hs : prog.Sound := (Program.delivers_ofTokens (hread.of_ok ht)).of_ok hp
  have hi : prog.Indexed := fun i op hop => Program.index_ofTokens hp hop
  obtain ⟨a, hg, hsound, hclosed, hv⟩ :=
    generate_accepted hs hi hr ((Check.delivers_run hs).of_ok hc) wish
  refine ⟨a, hg, hclosed, hv, (verify_eq_none_iff _).1 hv, ?_⟩
  simp only [compile, ht, compileTokens, hp, hc, hr, hg, hv, bind, Except.bind]

/-- A text with a semicolon is printed when a condition holds. -/
def announcing : Text := "1 IF DO \";\" PUTS ENDIF"

def announcingTokens : List Token :=
  [⟨.integer, "1", ⟨"a", 1, 1⟩⟩, ⟨.keyword, "IF", ⟨"a", 1, 3⟩⟩, ⟨.keyword, "DO", ⟨"a", 1, 6⟩⟩,
   ⟨.string, "\";\"", ⟨"a", 1, 9⟩⟩, ⟨.word, "PUTS", ⟨"a", 1, 13⟩⟩,
   ⟨.keyword, "ENDIF", ⟨"a", 1, 18⟩⟩]

theorem source_announcing (lib : Library) :
    (Reading.source lib {} "a" announcing).1 = .ok announcingTokens := by
  have hl : Lexer.tokens "a" announcing = .ok announcingTokens := by decide +kernel
  have hplain : ∀ t ∈ announcingTokens,
      t.isKeyword "MACRO" = false ∧ t.isKeyword "INCLUDE" = false := by decide
  simp only [Reading.source, hl, Reading.splice_plain lib _ _ _ hplain]

theorem compile_complete_announcing :
    ∃ prog analysis table a, Program.ofTokens announcingTokens = .ok prog ∧
      Check.run prog = .ok analysis ∧ Blocks.resolve prog = .ok table ∧ a.Closed ∧
      verify a.render = none ∧
      compile (.ofList "/" []) "a" announcing 64 =
        .ok ⟨announcingTokens, prog, analysis, table, a⟩ := by
  obtain ⟨a, -, hclosed, hv, -, hc⟩ := (compile_complete (.ofList "/" []) "a" announcing 64).1 _ _ _ _
    (source_announcing _) rfl rfl rfl
  exact ⟨_, _, _, a, rfl, rfl, rfl, hclosed, hv, hc⟩

end StackLang
