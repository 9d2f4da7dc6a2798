import Mathlib.Data.List.Nodup
import StackLang.Proofs.BlockScan
import StackLang.Proofs.Declarations
import StackLang.Proofs.FrontEnd
import StackLang.Proofs.SymbolNames

/-!
# The layout of a generated assembly

Generation goes over the operations of a program once. For a program that the stages before it have
accepted, every operation adds its data, its reserved memory and its lines to what is there, so the
result can be said as a whole.

- `layout`: the artifact of a program, section by section.
- `generate_eq_layout`: generation succeeds on accepted programs, and this is its result.
-/

set_option autoImplicit false

namespace StackLang.Codegen

open Assembly

/-! ## What an operation adds -/

/-- The constant data of an operation. -/
def dataLines (op : Operation) : List DataLine :=
  match op.action with
  | .pushString =>
    match Literal.unquote op.token.text with
    | .ok data => [.bytes (Symbol.string op.index).name data]
    | .error _ => []
  | .pushCString =>
    match Literal.unquote op.token.text with
    | .ok data => [.bytes (Symbol.cstring op.index).name (data ++ [0])]
    | .error _ => []
  | .pushArray =>
    match Literal.elements op.token.text with
    | .ok es =>
      let sym := (Symbol.array op.index).name
      elementLines sym 0 es ++ [.pointers sym ((List.range es.length).map (Artifact.elementName sym))]
    | .error _ => []
  | _ => []

/-- The memory that an operation reserves. -/
def reservations (size : Int) (op : Operation) : List Reservation :=
  match op.action with
  | .primitive .input => [⟨(Symbol.input op.index).name, size⟩]
  | _ => []

/-- The symbols that an operation declares, in order. -/
def declared (op : Operation) : List (Text × Section) :=
  match op.action with
  | .pushString => [((Symbol.string op.index).name, .rodata)]
  | .pushCString => [((Symbol.cstring op.index).name, .rodata)]
  | .pushArray =>
    match Literal.elements op.token.text with
    | .ok es =>
      let sym := (Symbol.array op.index).name
      (sym, .rodata) :: (elementSymbols sym 0 es).map (·, .rodata)
    | .error _ => []
  | .primitive .input => [((Symbol.input op.index).name, .bss)]
  | _ => []

/-- The lines of an operation behind its comment. -/
def template (prog : Program) (table : BlockTable) (size : Int) (op : Operation) : List Line :=
  match code prog table size op with
  | .ok ls => ls
  | .error _ => []

/-- The lines of an operation. -/
def opLines (prog : Program) (table : BlockTable) (size : Int) (op : Operation) : List Line :=
  .comment (remark op) :: template prog table size op

/-- **The assembly of a program**, section by section. -/
def layout (prog : Program) (table : BlockTable) (size : Int) : Artifact where
  rodata := (prog.flatMap dataLines).toArray
  bss := (⟨argsPointer, 8⟩ :: prog.flatMap (reservations size)).toArray
  code := (preamble ++ (prog.flatMap (opLines prog table size) ++ epilogue)).toArray
  symbols := ((argsPointer, .bss) :: prog.flatMap declared).toArray

/-- Data is found where it was recorded. -/
def Recorded (analysis : Analysis) (op : Operation) : Prop :=
  analysis.static? op.index = (Check.dataKind? op).map fun kind => ⟨op, kind⟩

/-- An operation whose symbols are new adds its data. -/
theorem declareData_ok {analysis : Analysis} {size : Int} {op : Operation} {a : Artifact}
    (hs : op.Sound) (hrec : Recorded analysis op) (hsize : 0 < size)
    (hid : ∀ s ∈ (declared op).map (·.1), s.isIdentifier = true)
    (hnew : (a.symbolNames ++ (declared op).map (·.1)).Nodup) :
    declareData analysis size op a
      = .ok (extend a (dataLines op) (reservations size op) [] (declared op)) := by
  have hfresh : ∀ s ∈ (declared op).map (·.1), s ∉ a.symbolNames := by
    intro s hm hm'
    exact (List.nodup_append.1 hnew).2.2 _ hm' _ hm rfl
  unfold Recorded at hrec
  unfold declareData
  cases ha : op.action with
  | pushString =>
    obtain ⟨data, hd⟩ : ∃ data, Literal.unquote op.token.text = .ok data := by
      simpa [Operation.Sound, ha] using hs
    simp only [declared, ha, List.map_cons, List.map_nil, List.mem_singleton, forall_eq] at hid hfresh
    simp only [Operation.symbol?, ha, hrec, Check.dataKind?, Option.map_some, declareKind, hd,
      literal, Artifact.declareString, declareBytes_ok hid hfresh, accept, dataLines, reservations,
      declared]
  | pushCString =>
    obtain ⟨data, hd⟩ : ∃ data, Literal.unquote op.token.text = .ok data := by
      simpa [Operation.Sound, ha] using hs
    simp only [declared, ha, List.map_cons, List.map_nil, List.mem_singleton, forall_eq] at hid hfresh
    simp only [Operation.symbol?, ha, hrec, Check.dataKind?, Option.map_some, declareKind, hd,
      literal, Artifact.declareCString, declareBytes_ok hid hfresh, accept, dataLines, reservations,
      declared]
  | pushArray =>
    obtain ⟨es, he⟩ : ∃ es, Literal.elements op.token.text = .ok es := by
      simpa [Operation.Sound, ha] using hs
    simp only [declared, ha, he, List.map_cons, List.map_map, Function.comp_def, List.map_id',
      List.forall_mem_cons] at hid hfresh hnew
    have helems := declareElements_ok (a := extend a [] [] [] [((Symbol.array op.index).name, .rodata)])
      hid.2 (by simpa [symbolNames_extend] using hnew)
    simp only [Operation.symbol?, ha, hrec, Check.dataKind?, Option.map_some, declareKind, he,
      literal, Artifact.declareArray, declare_ok hid.1 hfresh.1, helems, accept, dataLines,
      reservations, declared, extend_extend]
    simp only [extend, ← append_append_list]
    simp
  | primitive p =>
    by_cases hp : p = .input
    · subst hp
      simp only [declared, ha, List.map_cons, List.map_nil, List.mem_singleton, forall_eq] at hid hfresh
      simp only [Operation.symbol?, ha, hrec, Check.dataKind?, Option.map_some, declareKind,
        reserve_ok hid hfresh hsize, accept, dataLines, reservations, declared]
    · have hsym : op.symbol? = none := by
        unfold Operation.symbol?
        rw [ha]
        cases p <;> simp_all
      have hadd : dataLines op = [] ∧ reservations size op = [] ∧ declared op = [] := by
        unfold dataLines reservations declared
        rw [ha]
        cases p <;> simp_all
      rw [hsym, hadd.1, hadd.2.1, hadd.2.2, extend_nil]
  | keyword k =>
    simp [Operation.symbol?, ha, dataLines, reservations, declared, extend_nil]
  | pushInt =>
    simp [Operation.symbol?, ha, dataLines, reservations, declared, extend_nil]
  | unassigned code =>
    simp [Operation.symbol?, ha, dataLines, reservations, declared, extend_nil]

/-! ## The names of declared data -/

/-- The place of the operation that a name belongs to. -/
def Name.place : Name → Option Nat
  | .frame _ => none
  | .indexed _ i | .element i _ | .power _ i => some i

/-- The names that an operation declares. -/
def declaredNames (op : Operation) : List Name :=
  match op.action with
  | .pushString => [.indexed .string op.place]
  | .pushCString => [.indexed .cstring op.place]
  | .pushArray =>
    match Literal.elements op.token.text with
    | .ok es => .indexed .array op.place :: (List.range es.length).map (.element op.place)
    | .error _ => []
  | .primitive .input => [.indexed .input op.place]
  | _ => []

theorem index_eq_place {prog : Program} (hi : prog.Indexed) {op : Operation} (ho : op ∈ prog) :
    op.index = op.place := by
  obtain ⟨i, hop⟩ := List.mem_iff_getElem?.1 ho
  rw [Operation.place, hi i op hop]
  rfl

theorem declared_eq {op : Operation} (hidx : op.index = op.place) :
    (declared op).map (·.1) = (declaredNames op).map Name.text := by
  obtain ⟨hstr, hcstr, harr, hin⟩ := Name.text_symbol op.place
  unfold declared declaredNames
  rw [hidx]
  cases op.action with
  | pushString => simp [hstr]
  | pushCString => simp [hcstr]
  | pushArray =>
    cases Literal.elements op.token.text with
    | error e => rfl
    | ok es => simp [harr, elementSymbols_eq, Name.text_element]
  | primitive p => cases p <;> simp [hin]
  | _ => rfl

theorem mem_declaredNames {op : Operation} {n : Name} (h : n ∈ declaredNames op) :
    n.place = some op.place ∧ n.IsGlobal := by
  unfold declaredNames at h
  split at h
  · simp_all [Name.place, Name.IsGlobal]
  · simp_all [Name.place, Name.IsGlobal]
  · split at h
    · rcases List.mem_cons.1 h with rfl | h
      · simp [Name.place, Name.IsGlobal]
      · obtain ⟨j, -, rfl⟩ := List.mem_map.1 h
        simp [Name.place, Name.IsGlobal]
    · cases h
  · simp_all [Name.place, Name.IsGlobal]
  · cases h

theorem nodup_declaredNames (op : Operation) : (declaredNames op).Nodup := by
  unfold declaredNames
  split
  · simp
  · simp
  · split
    · refine List.nodup_cons.2 ⟨by simp, ?_⟩
      exact List.nodup_range.map fun i j h => by simpa using h
    · exact List.nodup_nil
  · simp
  · exact List.nodup_nil

/-- Names that tell the place of their operation are different for different operations. -/
theorem nodup_flatMap_names {prog : Program} (hi : prog.Indexed) {f : Operation → List Name}
    (hf : ∀ op, (f op).Nodup) (hp : ∀ op, ∀ n ∈ f op, n.place = some op.place) :
    (prog.flatMap f).Nodup := by
  rw [List.nodup_flatMap]
  refine ⟨fun op _ => hf op, ?_⟩
  refine List.Pairwise.imp_of_mem ?_ (Blocks.nodup_of_indexed hi)
  intro o o' ho ho' hne n hn hn'
  have hplace := (hp o n hn).symm.trans (hp o' n hn')
  exact hne (Blocks.eq_of_place_eq hi ho ho' (by simpa using hplace))

theorem nodup_declared {prog : Program} (hi : prog.Indexed) :
    (argsPointer :: (prog.flatMap declared).map (·.1)).Nodup := by
  have hmap : (prog.flatMap declared).map (·.1) = (prog.flatMap declaredNames).map Name.text := by
    rw [List.map_flatMap, List.map_flatMap, List.flatMap_def, List.flatMap_def]
    congr 1
    exact List.map_congr_left fun op ho => declared_eq (index_eq_place hi ho)
  have hnames : (.frame .argsPointer :: prog.flatMap declaredNames : List Name).Nodup := by
    refine List.nodup_cons.2 ⟨fun h => ?_, ?_⟩
    · obtain ⟨op, -, hn⟩ := List.mem_flatMap.1 h
      simpa [Name.place] using (mem_declaredNames hn).1
    · exact nodup_flatMap_names hi nodup_declaredNames fun op n hn => (mem_declaredNames hn).1
  rw [hmap, Name.text_frame.1, ← List.map_cons]
  exact hnames.map Name.text_injective

/-! ## Generation succeeds -/

section
variable {c : BlockTree.Code false} {table : BlockTable}

/-- The partner of an operation is what the tree links it to, a landing of the program. -/
theorem partner_of_mem (hc : Program.Indexed c.flatten) (h : Blocks.resolve c.flatten = .ok table)
    {op t : Operation} (ht : (op, t) ∈ c.targets none) :
    t ∈ c.flatten ∧ BlockTree.isLanding t.action = true ∧
      partner c.flatten table op = .ok t.label := by
  have ho : op ∈ c.flatten := by
    have hkey := List.mem_map_of_mem (f := Prod.fst) ht
    rw [c.keys_targets (by simp)] at hkey
    exact List.mem_of_mem_filter hkey
  have hland := c.landing ht
  simp only [reduceCtorEq, false_or] at hland
  have htarget : table.target? op.index = some t.place := by
    rw [index_eq_place hc ho]
    exact (Blocks.target?_iff hc h op.place t.place).2 ⟨(op, t), ht, rfl, rfl⟩
  refine ⟨hland.1, hland.2, ?_⟩
  unfold partner
  simp only [htarget, (hc.placed hland.1).operationAt]
  rfl

theorem partner_ok (hc : Program.Indexed c.flatten) (h : Blocks.resolve c.flatten = .ok table)
    {op : Operation} (ho : op ∈ c.flatten) (hk : BlockTree.hasTarget op.action = true) :
    ∃ t, t ∈ c.flatten ∧ BlockTree.isLanding t.action = true ∧
      partner c.flatten table op = .ok t.label := by
  obtain ⟨-, t, ht⟩ := Blocks.exists_target hc (hc.placed ho).2 hk
  exact ⟨t, partner_of_mem hc h ht⟩

theorem code_ok (hc : Program.Indexed c.flatten) (h : Blocks.resolve c.flatten = .ok table)
    (size : Int) {op : Operation} (ho : op ∈ c.flatten) (hs : op.Sound) :
    code c.flatten table size op = .ok (template c.flatten table size op) := by
  suffices hok : ∃ ls, code c.flatten table size op = .ok ls by
    obtain ⟨ls, hls⟩ := hok
    rw [template, hls]
  have hpartner := partner_ok hc h ho
  unfold code
  unfold Operation.Sound at hs
  cases ha : op.action with
  | keyword k =>
    rw [ha] at hpartner
    cases k with
    | ifKw | whileKw | endifKw => exact ⟨_, rfl⟩
    | endKw => exact absurd ha (c.ne_end ho)
    | doKw | doneKw | elifKw | elseKw | breakKw =>
      obtain ⟨t, -, -, hp⟩ := hpartner rfl
      simp [keyword, hp, Except.map]
  | pushInt => exact ⟨_, rfl⟩
  | pushString =>
    rw [ha] at hs
    obtain ⟨data, hd⟩ := hs
    simp [hd]
  | pushCString => exact ⟨_, rfl⟩
  | pushArray => exact ⟨_, rfl⟩
  | primitive p =>
    rw [ha] at hs
    cases p with
    | unassigned code => exact hs.elim
    | _ => exact ⟨_, rfl⟩
  | unassigned code =>
    rw [ha] at hs
    exact hs.elim

end

/-- Every operation of a program finds the data that the check recorded for it. -/
theorem recorded_of_statics {prog : Program} (hi : prog.Indexed) {analysis : Analysis}
    (h : analysis.statics = Check.statics prog) {op : Operation} (ho : op ∈ prog) :
    Recorded analysis op := by
  unfold Recorded Analysis.static?
  rw [h]
  have hmem : ∀ st, st ∈ Check.statics prog ↔ st.op ∈ prog ∧ Check.dataKind? st.op = some st.kind := by
    intro st
    simp only [Check.statics, List.mem_filterMap, Option.map_eq_some_iff]
    constructor
    · rintro ⟨o, ho, kind, hk, rfl⟩
      exact ⟨ho, hk⟩
    · rintro ⟨ho, hk⟩
      exact ⟨st.op, ho, st.kind, hk, rfl⟩
  have hsame : ∀ st ∈ Check.statics prog, st.op.index = op.index → st.op = op := by
    intro st hst he
    have ho' := ((hmem st).1 hst).1
    refine Blocks.eq_of_place_eq hi ho' ho ?_
    rw [Operation.place, he, Operation.place]
  cases hk : Check.dataKind? op with
  | none =>
    rw [Option.map_none, List.find?_eq_none]
    intro st hst he
    have hst := List.mem_reverse.1 hst
    have heq := hsame st hst (by simpa using he)
    have := ((hmem st).1 hst).2
    rw [heq, hk] at this
    cases this
  | some kind =>
    have hin : (⟨op, kind⟩ : Static) ∈ (Check.statics prog).reverse :=
      List.mem_reverse.2 ((hmem _).2 ⟨ho, hk⟩)
    cases hf : (Check.statics prog).reverse.find? (·.op.index = op.index) with
    | none =>
      rw [List.find?_eq_none] at hf
      exact absurd (decide_eq_true rfl) (hf _ hin)
    | some st =>
      have hst := List.mem_reverse.1 (List.mem_of_find?_eq_some hf)
      have heq := hsame st hst (by simpa using List.find?_some hf)
      have hkind := ((hmem st).1 hst).2
      rw [heq, hk, Option.some.injEq] at hkind
      obtain ⟨o, k⟩ := st
      cases heq
      cases hkind
      rfl

section
variable {prog : Program} {table : BlockTable} {analysis : Analysis} {size : Int}

/-- **One operation** whose symbols are new adds its part. -/
theorem emit_ok {op : Operation} {a : Artifact} (hs : op.Sound) (hrec : Recorded analysis op)
    (hsize : 0 < size) (hid : ∀ s ∈ (declared op).map (·.1), s.isIdentifier = true)
    (hnew : (a.symbolNames ++ (declared op).map (·.1)).Nodup)
    (hcode : code prog table size op = .ok (template prog table size op)) :
    emit prog table analysis size a op = .ok (extend a (dataLines op) (reservations size op)
      (opLines prog table size op) (declared op)) := by
  have hline : a.line (.comment (remark op)) = extend a [] [] [.comment (remark op)] [] := by
    simp [Artifact.line, extend]
  unfold emit
  rw [hline, declareData_ok hs hrec hsize hid (by simpa [symbolNames_extend] using hnew), hcode]
  simp only [List.nil_append, List.append_nil, Except.map, Artifact.lines, extend,
    append_append_list, opLines, List.singleton_append]

/-- The operations one after the other. -/
theorem foldlM_emit_ok {ops : Program} {a : Artifact}
    (hops : ∀ op ∈ ops, op.Sound ∧ Recorded analysis op ∧
      (∀ s ∈ (declared op).map (·.1), s.isIdentifier = true) ∧
      code prog table size op = .ok (template prog table size op))
    (hsize : 0 < size) (hnew : (a.symbolNames ++ (ops.flatMap declared).map (·.1)).Nodup) :
    ops.foldlM (emit prog table analysis size) a = .ok (extend a (ops.flatMap dataLines)
      (ops.flatMap (reservations size)) (ops.flatMap (opLines prog table size))
      (ops.flatMap declared)) := by
  induction ops generalizing a with
  | nil => simp [extend_nil, pure, Except.pure]
  | cons op ops ih =>
    obtain ⟨⟨hs, hrec, hid, hcode⟩, hrest⟩ := List.forall_mem_cons.1 hops
    simp only [List.flatMap_cons, List.map_append, ← List.append_assoc] at hnew
    have hop := emit_ok hs hrec hsize hid (List.nodup_append.1 hnew).1 hcode
    rw [List.foldlM_cons, hop]
    refine (ih hrest ?_).trans ?_
    · rw [symbolNames_extend]
      exact hnew
    · rw [extend_extend]
      rfl

end

theorem bufferSizeFor_pos (wish : Int) : 0 < bufferSizeFor wish := by
  unfold bufferSizeFor defaultBufferSize
  split <;> omega

/-- **Generation succeeds** on a program that the other stages accept, with this artifact. -/
theorem generate_eq_layout {prog : Program} (hs : prog.Sound) (hi : prog.Indexed)
    {table : BlockTable} (hr : Blocks.resolve prog = .ok table) {analysis : Analysis}
    (ha : analysis.statics = Check.statics prog) (wish : Int) :
    generate prog table analysis wish = .ok (layout prog table (bufferSizeFor wish)) := by
  obtain ⟨c, rfl⟩ := Blocks.exists_flatten_of_resolve hi hr
  have hstart : start = extend ⟨#[], #[⟨argsPointer, 8⟩], #[], #[(argsPointer, .bss)]⟩ [] []
      preamble [] := by
    have hid : Text.isIdentifier argsPointer = true := by decide
    rw [start, reserve_ok hid (by simp [Artifact.symbolNames, Artifact.empty]) (by decide)]
    simp [Artifact.lines, extend, Artifact.empty]
  have hops : ∀ op ∈ c.flatten, op.Sound ∧ Recorded analysis op ∧
      (∀ s ∈ (declared op).map (·.1), s.isIdentifier = true) ∧
      code c.flatten table (bufferSizeFor wish) op
        = .ok (template c.flatten table (bufferSizeFor wish) op) := by
    intro op ho
    refine ⟨hs op ho, recorded_of_statics hi ha ho, ?_, code_ok hi hr _ ho (hs op ho)⟩
    rw [declared_eq (index_eq_place hi ho)]
    intro s hsym
    obtain ⟨n, hn, rfl⟩ := List.mem_map.1 hsym
    exact (Name.identifier (mem_declaredNames hn).2).2.1
  have hnew : ((start).symbolNames ++ (c.flatten.flatMap declared).map (·.1)).Nodup := by
    rw [hstart, symbolNames_extend]
    exact nodup_declared hi
  rw [generate, foldlM_emit_ok hops (bufferSizeFor_pos wish) hnew, hstart, extend_extend]
  simp [Except.map, Artifact.lines, extend, layout]

end StackLang.Codegen
