import StackLang.Proofs.GeneratedCode

/-!
# Literals in the data section

The data lines of a program are read back from the text of its assembly: which line defines the
symbol of a literal, and which bytes the operands of that line stand for.

- `operandBytes`, `bytesOf`: the bytes of the operands of a `db` line, by their text alone.
- `Stored`: what the lines of a program hold for an operation.
- `stored_dataLines`: the lines of an operation hold its literal, whatever stands around them.
-/

set_option autoImplicit false

namespace StackLang.Assembly

open Text Verify

/-! ## Reading operands -/

/-- The bytes that the text of an operand stands for: what double quotes enclose, or the one byte of
a decimal number. -/
def operandBytes (t : Text) : Option Text :=
  match t with
  | [] => none
  | b :: rest =>
    if b = byte '"' then
      match cut? (byte '"') rest with
      | some (chars, []) => some chars
      | _ => none
    else
      match Number.decimal t with
      | .ok v => if 0 ≤ v.toInt ∧ v.toInt < 256 then some [UInt8.ofNat v.toInt.toNat] else none
      | .error _ => none

/-- The bytes that the operands of a line stand for. -/
def bytesOf (operands : List Text) : Option Text := (operands.mapM operandBytes).map List.flatten

theorem operandBytes_ofNat (b : UInt8) : operandBytes (ofNat b.toNat) = some [b] := by
  have hall : ∀ n : Fin 256, operandBytes (ofNat n.val) = some [UInt8.ofNat n.val] := by decide +kernel
  simpa using hall ⟨b.toNat, b.toNat_lt⟩

theorem operandBytes_render {o : DataOperand} (h : o.Plain) :
    operandBytes o.render = some o.values := by
  cases o with
  | number b => exact operandBytes_ofNat b
  | run chars =>
    have hq : byte '"' ∉ chars := fun hm => (DataOperand.of_isPlain (h _ hm)).2.1 rfl
    have hrender : DataOperand.render (.run chars) = byte '"' :: (chars ++ byte '"' :: []) := rfl
    simp only [hrender, operandBytes, if_true, cut?_append hq, DataOperand.values]

theorem bytesOf_render {os : List DataOperand} (h : ∀ o ∈ os, o.Plain) :
    bytesOf (os.map DataOperand.render) = some (os.flatMap DataOperand.values) := by
  suffices hmap : (os.map DataOperand.render).mapM operandBytes = some (os.map DataOperand.values) by
    rw [bytesOf, hmap, Option.map_some, List.flatMap_def]
  induction os with
  | nil => rfl
  | cons o os ih =>
    obtain ⟨ho, hos⟩ := List.forall_mem_cons.1 h
    rw [List.map_cons, List.mapM_cons, operandBytes_render ho, ih hos]
    rfl

/-- **The operands of bytes are read back** as these bytes; no bytes at all are a zero. -/
theorem bytesOf_operands (sym data : Text) :
    bytesOf (DataLine.bytes sym data).operands = some (if data = [] then [0] else data) := by
  cases data with
  | nil =>
    change bytesOf [("0" : Text)] = some [0]
    decide
  | cons b data =>
    change bytesOf ((DataOperand.ofBytes (b :: data)).map DataOperand.render) = some (b :: data)
    rw [bytesOf_render (DataOperand.plain_ofBytes _), DataOperand.values_ofBytes]

/-! ## Lines that define a symbol -/

/-- The lines that define a symbol. -/
def defining (lines : List ParsedLine) (sym : Text) : List ParsedLine :=
  lines.filter fun l => sym ∈ l.labels

/-- One line defines a symbol, and it holds these bytes. -/
def HoldsBytes (lines : List ParsedLine) (sym data : Text) : Prop :=
  ∃ operands, defining lines sym = [⟨[sym], "DB", operands⟩] ∧ bytesOf operands = some data

/-- Data lines with different symbols are found by them. -/
theorem defining_parsed {ls : List DataLine} (hnd : (ls.map DataLine.sym).Nodup) {l : DataLine}
    (hl : l ∈ ls) : defining (ls.map DataLine.parsed) l.sym = [l.parsed] := by
  induction ls with
  | nil => cases hl
  | cons x ls ih =>
    obtain ⟨hx, hnd⟩ := List.nodup_cons.1 hnd
    have hrest : ∀ s, s ∉ ls.map DataLine.sym → defining (ls.map DataLine.parsed) s = [] := by
      intro s hs
      rw [defining, List.filter_eq_nil_iff]
      intro p hp hmem
      obtain ⟨y, hy, rfl⟩ := List.mem_map.1 hp
      have hsym : s = y.sym := by simpa [DataLine.parsed] using hmem
      exact hs (hsym ▸ List.mem_map_of_mem hy)
    rcases List.mem_cons.1 hl with rfl | hl
    · have hself : l.sym ∈ l.parsed.labels := by simp [DataLine.parsed]
      rw [List.map_cons, defining, List.filter_cons_of_pos (by simpa using hself)]
      exact congrArg _ (hrest _ hx)
    · have hother : l.sym ∉ x.parsed.labels := by
        intro hmem
        have hsym : l.sym = x.sym := by simpa [DataLine.parsed] using hmem
        exact hx (hsym ▸ List.mem_map_of_mem hl)
      rw [List.map_cons, defining, List.filter_cons_of_neg (by simpa using hother)]
      exact ih hnd hl

theorem holdsBytes_parsed {ls : List DataLine} (hnd : (ls.map DataLine.sym).Nodup) {sym data : Text}
    (hl : .bytes sym data ∈ ls) :
    HoldsBytes (ls.map DataLine.parsed) sym (if data = [] then [0] else data) :=
  ⟨_, defining_parsed hnd hl, bytesOf_operands sym data⟩

end StackLang.Assembly

namespace StackLang.Codegen

open Assembly Verify

/-! ## Operations -/

/-- **What the data lines of a program hold for an operation**: the bytes of a string, those of a C
string and a zero, and for an array the addresses of its elements and a zero, where the elements are C
strings. -/
def Stored (lines : List ParsedLine) (op : Operation) : Prop :=
  match op.action with
  | .pushString => ∃ data, Literal.unquote op.token.text = .ok data ∧
      HoldsBytes lines (Symbol.string op.index).name (if data = [] then [0] else data)
  | .pushCString => ∃ data, Literal.unquote op.token.text = .ok data ∧
      HoldsBytes lines (Symbol.cstring op.index).name (data ++ [0])
  | .pushArray => ∃ es, Literal.elements op.token.text = .ok es ∧
      defining lines (Symbol.array op.index).name = [⟨[(Symbol.array op.index).name], "DQ",
        (List.range es.length).map (Artifact.elementName (Symbol.array op.index).name) ++ [("0" : Text)]⟩] ∧
      ∀ (i : Nat) (e : Text), es[i]? = some e →
        HoldsBytes lines (Artifact.elementName (Symbol.array op.index).name i) (e ++ [0])
  | _ => True

/-- The symbols of the data lines of an operation, in order: those of an array's elements come before
its own. -/
def storedSymbols (op : Operation) : List Text :=
  match op.action with
  | .pushString => [(Symbol.string op.index).name]
  | .pushCString => [(Symbol.cstring op.index).name]
  | .pushArray =>
    match Literal.elements op.token.text with
    | .ok es =>
      let sym := (Symbol.array op.index).name
      (List.range es.length).map (Artifact.elementName sym) ++ [sym]
    | .error _ => []
  | _ => []

theorem mem_elementLines {sym : Text} {es : List Text} {i j : Nat} {e : Text}
    (h : es[i]? = some e) :
    .bytes (Artifact.elementName sym (j + i)) (e ++ [0]) ∈ elementLines sym j es := by
  induction es generalizing i j with
  | nil => simp at h
  | cons x es ih =>
    cases i with
    | zero =>
      obtain rfl := Option.some.inj h
      exact List.mem_cons_self
    | succ i =>
      have hnext := ih (j := j + 1) h
      rw [Nat.add_right_comm] at hnext
      exact List.mem_cons_of_mem _ hnext

/-- **The lines of an operation hold its literal**, among other lines with other symbols. -/
theorem stored_dataLines {ls : List DataLine} (hnd : (ls.map DataLine.sym).Nodup) {op : Operation}
    (hs : op.Sound) (hsub : dataLines op ⊆ ls) : Stored (ls.map DataLine.parsed) op := by
  unfold Operation.Sound at hs
  unfold dataLines at hsub
  unfold Stored
  cases ha : op.action with
  | pushString =>
    rw [ha] at hs hsub
    obtain ⟨data, hd⟩ := hs
    simp only [hd] at hsub
    exact ⟨data, hd, holdsBytes_parsed hnd (hsub List.mem_cons_self)⟩
  | pushCString =>
    rw [ha] at hs hsub
    obtain ⟨data, hd⟩ := hs
    simp only [hd] at hsub
    have hholds := holdsBytes_parsed hnd (hsub List.mem_cons_self)
    rw [if_neg (by simp)] at hholds
    exact ⟨data, hd, hholds⟩
  | pushArray =>
    rw [ha] at hs hsub
    obtain ⟨es, he⟩ := hs
    simp only [he] at hsub
    obtain ⟨helems, htable⟩ := List.append_subset.1 hsub
    refine ⟨es, he, defining_parsed hnd (htable List.mem_cons_self), fun i e hi => ?_⟩
    have hholds := holdsBytes_parsed hnd (helems (mem_elementLines (j := 0) hi))
    rw [if_neg (by simp), Nat.zero_add] at hholds
    exact hholds
  | _ => trivial

theorem syms_dataLines_eq {op : Operation} (hs : op.Sound) :
    (dataLines op).map DataLine.sym = storedSymbols op := by
  unfold Operation.Sound at hs
  unfold dataLines storedSymbols
  cases ha : op.action with
  | pushString | pushCString =>
    rw [ha] at hs
    obtain ⟨data, hd⟩ := hs
    simp [hd, DataLine.sym]
  | pushArray =>
    rw [ha] at hs
    obtain ⟨es, he⟩ := hs
    simp [he, syms_elementLines, elementSymbols_eq, DataLine.sym]
  | _ => rfl

/-! ## Programs -/

theorem nodup_syms_dataLines {prog : Program} (hi : prog.Indexed) (hs : prog.Sound) :
    ((prog.flatMap dataLines).map DataLine.sym).Nodup := by
  have hnames : (prog.flatMap dataNames).Nodup := by
    refine nodup_flatMap_names hi (fun op => ?_) fun op n hn => (mem_declaredNames (mem_dataNames hn)).1
    have hperm := (declaredNames_perm op).nodup_iff.2 (nodup_declaredNames op)
    exact (List.nodup_append.1 hperm).1
  rw [flatMap_map_congr fun op ho => syms_dataLines (index_eq_place hi ho) (hs op ho)]
  exact hnames.map Name.text_injective

theorem syms_flatMap_dataLines {prog : Program} (hs : prog.Sound) :
    (prog.flatMap dataLines).map DataLine.sym = prog.flatMap storedSymbols := by
  rw [List.map_flatMap, List.flatMap_def, List.flatMap_def]
  exact congrArg _ (List.map_congr_left fun op ho => syms_dataLines_eq (hs op ho))

/-- The lines of an operation stand together in the code. -/
theorem opLines_isInfix {prog : Program} {op : Operation} (ho : op ∈ prog) (table : BlockTable)
    (size : Int) : opLines prog table size op <:+: (layout prog table size).code.toList := by
  have hops : opLines prog table size op <:+: prog.flatMap (opLines prog table size) := by
    rw [List.flatMap_def]
    exact List.infix_of_mem_flatten (List.mem_map_of_mem ho)
  exact hops.trans ⟨preamble, epilogue, by simp [layout]⟩

theorem layout_of_made {size : Int} {r : Compiled} (h : r.Made size) :
    r.program.Sound ∧ r.artifact = layout r.program r.blocks (bufferSizeFor size) := by
  have hstatics := Check.statics_of_run h.analysis
  have hs := sound_of_generate h.indexed hstatics h.artifact
  have hgen := generate_eq_layout hs h.indexed h.blocks hstatics size
  exact ⟨hs, Except.ok.inj (h.artifact.symm.trans hgen)⟩

/-- **Literals reach the data section intact.** The text of a compiled program starts with its data:
for each operation with a literal the lines hold it, one line for each symbol, in the order of the
operations; symbols are declared in that order too, behind the cell of the arguments; and the length
that a string pushes is that of its bytes. -/
theorem literals_reach_data {lib : Library} {file source : Text} {size : Int} {r : Compiled}
    (h : compile lib file source size = .ok r) :
    ∃ lines rest, ReadAs (textLines r.artifact.render)
        (Artifact.headerLine .rodata :: lines ++ Artifact.headerLine .bss :: rest) ∧
      (∀ op ∈ r.program, Stored lines op) ∧
      lines.map (·.labels) = (r.program.flatMap storedSymbols).map ([·]) ∧
      r.artifact.symbolNames
        = argsPointer :: (r.program.flatMap declared).map (·.1) ∧
      ∀ op ∈ r.program, op.action = .pushString →
        ∀ data, Literal.unquote op.token.text = .ok data →
          .comment (remark op) :: op1 .push (.imm data.length)
            :: pushAddress (Symbol.string op.index).name <:+: r.artifact.code.toList := by
  obtain ⟨-, hmade⟩ := compile_eq_ok_iff.1 h
  obtain ⟨hs, hlayout⟩ := layout_of_made hmade
  have hi := hmade.indexed
  have hsound : r.artifact.Sound := by
    obtain ⟨c, hc⟩ := Blocks.exists_flatten_of_resolve hi hmade.blocks
    rw [hlayout, ← hc]
    exact layout_sound (hc ▸ hi) (hc ▸ hmade.blocks) (hc ▸ hs) _
  have hdata : r.artifact.rodata.toList = r.program.flatMap dataLines := by simp [hlayout, layout]
  refine ⟨r.artifact.rodata.toList.map DataLine.parsed, _, Artifact.readAs hsound, ?_, ?_, ?_, ?_⟩
  · intro op ho
    rw [hdata]
    exact stored_dataLines (nodup_syms_dataLines hi hs) (hs op ho)
      fun l hl => List.mem_flatMap.2 ⟨op, ho, hl⟩
  · rw [hdata, ← syms_flatMap_dataLines hs, List.map_map, List.map_map]
    rfl
  · simp [hlayout, layout, Artifact.symbolNames]
  · intro op ho ha data hd
    have hinfix := opLines_isInfix ho r.blocks (bufferSizeFor size)
    rw [← hlayout, opLines, template] at hinfix
    simpa only [code, ha, hd] using hinfix

/-- A string with a line break and a quote, a C string, an array, and an empty string. -/
def labelling : Program :=
  [written 0 .pushString .string "\"a\\n\\\"\"" 1, written 1 .pushCString .cstring "'b'" 9,
   written 2 .pushArray .array "ARRAY(\"p, q\", r)" 13, written 3 .pushString .string "\"\"" 30]

theorem literals_reach_data_labelling : ∃ r lines rest,
    compile (.ofList "/" []) "a" "\"a\\n\\\"\" 'b' ARRAY(\"p, q\", r) \"\"" 0 = .ok r ∧
    ReadAs (textLines r.artifact.render)
      (Artifact.headerLine .rodata :: lines ++ Artifact.headerLine .bss :: rest) ∧
    HoldsBytes lines "str_0" [97, 10, 34] ∧ HoldsBytes lines "cstr_1" [98, 0] ∧
    defining lines "array_2" = [⟨["array_2"], "DQ", ["array_2_0", "array_2_1", "0"]⟩] ∧
    HoldsBytes lines "array_2_0" [112, 44, 32, 113, 0] ∧ HoldsBytes lines "str_3" [0] ∧
    r.artifact.symbolNames = List.map Text.ofString
      ["args_ptr", "str_0", "cstr_1", "array_2", "array_2_0", "array_2_1", "str_3"] := by
  have hl : Lexer.tokens "a" "\"a\\n\\\"\" 'b' ARRAY(\"p, q\", r) \"\"" =
      .ok (labelling.map (·.token)) := by decide +kernel
  have hp : Program.ofTokens (labelling.map (·.token)) = .ok labelling := by decide +kernel
  have hsteps : Check.steps labelling [] = .ok [.ptr (.data (.string 3)), .known 0,
      .ptr (.data (.array 2)), .ptr (.data (.cstring 1)), .ptr (.data (.string 0)), .known 3] := by
    decide +kernel
  have hb : Blocks.resolve labelling = .ok (.empty 4) := by decide +kernel
  obtain ⟨a, hr⟩ := exists_compile (.ofList "/" []) (source_of_tokens hl (by decide)) hp
    (Check.run_of_steps hsteps) hb 0
  obtain ⟨lines, rest, hread, hstored, -, hsymbols, -⟩ := literals_reach_data hr
  have hops : ∀ op ∈ labelling, Stored lines op := hstored
  simp only [labelling, List.forall_mem_cons] at hops
  obtain ⟨⟨d0, hd0, h0⟩, ⟨d1, hd1, h1⟩, ⟨es, hes, h2, helems⟩, ⟨d3, hd3, h3⟩, -⟩ := hops
  have hu0 : Literal.unquote "\"a\\n\\\"\"" = .ok [97, 10, 34] := by decide +kernel
  have hu1 : Literal.unquote "'b'" = .ok [98] := by decide +kernel
  have hu2 : Literal.elements "ARRAY(\"p, q\", r)" = .ok [[112, 44, 32, 113], [114]] := by
    decide +kernel
  have hu3 : Literal.unquote "\"\"" = .ok [] := by decide +kernel
  obtain rfl := Except.ok.inj (hu0.symm.trans hd0)
  obtain rfl := Except.ok.inj (hu1.symm.trans hd1)
  obtain rfl := Except.ok.inj (hu2.symm.trans hes)
  obtain rfl := Except.ok.inj (hu3.symm.trans hd3)
  have hnames : argsPointer :: (labelling.flatMap declared).map (·.1) = List.map Text.ofString
      ["args_ptr", "str_0", "cstr_1", "array_2", "array_2_0", "array_2_1", "str_3"] := by decide +kernel
  exact ⟨_, lines, rest, hr, hread, h0, h1, h2, helems 0 _ rfl, h3, hsymbols.trans hnames⟩

end StackLang.Codegen
