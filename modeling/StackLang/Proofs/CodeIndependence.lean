import Mathlib.Data.List.Forall2
import StackLang.Proofs.DataSection

/-!
# Code does not depend on wording

How an operation is worded in its source shows in a comment and nowhere else in the code. Programs
whose operations do the same, with the same numbers and with strings of the same lengths, have the
same lines of code but for the comments, whatever their literals hold.

- `codeLines`, `isComment`: the lines of code in the text of a file, and which of them are comments.
- `Operation.Alike`: operations that differ in their wording only.
- `target?_of_shapes`: jumps depend on the actions of a program alone.
- `code_independent_of_wording`: the code of programs that are alike.
-/

set_option autoImplicit false

namespace StackLang.Assembly

open Text Verify

/-! ## Lines of code in a text -/

/-- The lines of a text behind the one that opens the code. -/
def codeLines (text : Text) : List Text :=
  ((textLines text).dropWhile (· ≠ ("section .text" : Text))).drop 1

/-- Whether a line is a comment: the first byte that is no blank is a semicolon. -/
def isComment (line : Text) : Bool := (line.dropWhile isGap).head? = some (byte ';')

/-- The lines of code in a text that are not comments. -/
def statements (text : Text) : List Text := (codeLines text).filter (!isComment ·)

/-- Whether a line of an artifact is a comment. -/
def Line.isRemark : Line → Bool
  | .comment _ => true
  | _ => false

theorem isComment_indent (t : Text) : isComment (indent ++ t) = isComment t := rfl

/-- A line that starts with a tidy text is no comment. -/
theorem isComment_of_tidy {t : Text} (h : Tidy t) (rest : Text) : isComment (t ++ rest) = false := by
  obtain ⟨b, hb, hs⟩ := h.starts
  cases t with
  | nil => cases hb
  | cons c t =>
    obtain rfl := Option.some.inj hb
    have hgap : isGap c = false := by
      by_contra hg
      simp only [isGap, Bool.or_eq_true, decide_eq_true_eq, Bool.not_eq_false] at hg
      rcases hg with rfl | rfl <;> revert hs <;> decide
    have hsemi : c ≠ byte ';' := by
      rintro rfl
      have hmem : byte ';' ∈ outside none (byte ';' :: t) := by
        have hq : isQuote (byte ';') = false := by decide
        simp [outside, hq]
      exact (h.plain _ hmem).2 rfl
    simp [isComment, hgap, hsemi]

/-- A statement starts with its mnemonic. -/
theorem exists_statement_eq (m : Text) (ops : List Text) : ∃ rest, statement m ops = m ++ rest := by
  unfold statement
  split
  · exact ⟨[], (List.append_nil m).symm⟩
  · exact ⟨_, rfl⟩

/-- A sound line of code is a comment in the text when it is one in the artifact. -/
theorem Line.isComment_text {l : Line} (h : l.Sound) : isComment l.text = l.isRemark := by
  cases l with
  | label name => exact isComment_of_tidy (IsName.isOperand h).toTidy _
  | instruction i =>
    obtain ⟨rest, hrest⟩ := exists_statement_eq i.mnemonic (i.operands.map Operand.render)
    have htidy := isComment_of_tidy i.isMnemonic.1.isOperand.toTidy rest
    rw [← hrest, ← i.render_eq] at htidy
    exact (isComment_indent _).trans htidy
  | verbatim t => exact h.elim
  | comment t => rfl
  | exported sym => rfl
  | blank => rfl

/-- The lines of code in the text of an artifact: its own, and an empty one at the end. -/
theorem codeLines_render {a : Artifact} (h : a.Sound) :
    codeLines a.render = a.code.toList.map Line.text ++ [[]] := by
  have hdata : ∀ t ∈ a.dataTexts, t ≠ "section .text" := by
    rintro t ht rfl
    exact a.codeHeader_notMem ht
  rw [codeLines, Artifact.textLines_render (fun l hl => DataLine.oneLine (h.rodata l hl).legible)
      (fun r hr => Reservation.oneLine (h.bss r hr).label) fun l hl => Line.oneLine (h.code l hl),
    List.dropWhile_append_of_pos (by simpa using hdata), List.dropWhile_cons_of_neg (by simp)]
  rfl

theorem filter_isComment {ls : List Line} (h : ∀ l ∈ ls, l.Sound) :
    (ls.map Line.text).filter isComment = (ls.filter Line.isRemark).map Line.text := by
  rw [List.filter_map]
  exact congrArg _ (List.filter_congr fun l hl => Line.isComment_text (h l hl))

/-- What the lines of code are read as, comments apart. -/
theorem readAs_statements {a : Artifact} (h : a.Sound) : ReadAs (statements a.render)
    ((a.code.toList.filter (!Line.isRemark ·)).map Line.parsed ++ [⟨[], [], []⟩]) := by
  have hlast : ReadAs [[]] [⟨[], [], []⟩] := rfl
  have hfilter : statements a.render
      = (a.code.toList.filter (!Line.isRemark ·)).map Line.text ++ [[]] := by
    rw [statements, codeLines_render h, List.filter_append, List.filter_map]
    congr 2
    exact List.filter_congr fun l hl => by simp [Line.isComment_text (h.code l hl)]
  rw [hfilter]
  refine readAs_append (readAs_map fun l hl => ?_) hlast
  exact Line.parse_text (h.code l (List.mem_of_mem_filter hl)) 0

end StackLang.Assembly

namespace StackLang

/-! ## Jumps -/

/-- The index and the action of an operation. -/
def Operation.shape (op : Operation) : Int × Action := (op.index, op.action)

/-- Operations that do the same: they have the same action, and push the same number or a string of
the same length. -/
structure Operation.Alike (op op' : Operation) : Prop where
  action : op.action = op'.action
  value : op.action = .pushInt → op.intValue = op'.intValue
  length : op.action = .pushString → ∀ data data', Literal.unquote op.token.text = .ok data →
    Literal.unquote op'.token.text = .ok data' → data.length = data'.length

section
variable {ops ops' : List Operation}

theorem scan_shape (opening closing : Keyword) (stops : List Keyword) (depth : Nat)
    (h : ops.map Operation.shape = ops'.map Operation.shape) :
    (scan opening closing stops depth ops).map Operation.shape
      = (scan opening closing stops depth ops').map Operation.shape := by
  induction ops generalizing ops' depth with
  | nil =>
    obtain rfl := List.map_eq_nil_iff.1 h.symm
    rfl
  | cons op ops ih =>
    cases ops' with
    | nil => cases h
    | cons op' ops' =>
      obtain ⟨hop, hops⟩ := List.cons.inj h
      have ha : op.action = op'.action := congrArg Prod.snd hop
      simp only [scan, ha]
      split
      · exact congrArg some hop
      split
      · exact ih _ hops
      split
      · exact ih _ hops
      · exact ih _ hops

theorem scanOpener_shape {op op' : Operation} (hop : op.shape = op'.shape)
    (h : ops.map Operation.shape = ops'.map Operation.shape) (after after' : List Operation) :
    (scanOpener ops op after).map Operation.shape
      = (scanOpener ops' op' after').map Operation.shape := by
  have ha : op.action = op'.action := congrArg Prod.snd hop
  simp only [scanOpener, ha]
  split
  · have hfind : ∀ l : List Operation, (l.find? fun o => Blocks.opensTest o.action).map
        Operation.shape = (l.map Operation.shape).find? fun s => Blocks.opensTest s.2 := by
      intro l
      rw [List.find?_map]
      rfl
    rw [hfind, hfind, h]
  · rfl

theorem scanTarget_shape {op op' : Operation} (hop : op.shape = op'.shape)
    (h : ops.map Operation.shape = ops'.map Operation.shape) {after after' : List Operation}
    (hafter : after.map Operation.shape = after'.map Operation.shape) :
    (scanTarget ops op after).map Operation.shape
      = (scanTarget ops' op' after').map Operation.shape := by
  have ha : op.action = op'.action := congrArg Prod.snd hop
  have hopener : (scanOpener ops op after).any (fun o => o.action = .keyword .whileKw)
      = (scanOpener ops' op' after').any fun o => o.action = .keyword .whileKw := by
    have hany : ∀ x : Option Operation, x.any (fun o => o.action = .keyword .whileKw)
        = (x.map Operation.shape).any fun s => s.2 = .keyword .whileKw := by
      intro x
      cases x <;> rfl
    rw [hany, hany, scanOpener_shape hop h]
  simp only [scanTarget, ha, hopener]
  split
  · split
    · exact scan_shape _ _ _ _ hafter
    · exact scan_shape _ _ _ _ hafter
  · exact scan_shape _ _ _ _ hafter
  · exact scan_shape _ _ _ _ hafter
  · exact scan_shape _ _ _ _ hafter
  · exact scan_shape _ _ _ _ hafter
  · exact scan_shape _ _ _ _ h
  · rfl

end

section
variable {prog prog' : Program} (h : prog.map Operation.shape = prog'.map Operation.shape)
include h

theorem getElem?_shape (i : Nat) :
    prog[i]?.map Operation.shape = prog'[i]?.map Operation.shape := by
  rw [← List.getElem?_map, h, List.getElem?_map]

/-- **Jumps depend on the shape of a program alone**, not on its tokens. -/
theorem target?_of_shapes (hi : prog.Indexed) (hi' : prog'.Indexed) {table table' : BlockTable}
    (hr : Blocks.resolve prog = .ok table) (hr' : Blocks.resolve prog' = .ok table') (i : Nat) :
    table.target? i = table'.target? i := by
  have hscan : ∀ {p : Program} {t : BlockTable}, p.Indexed → Blocks.resolve p = .ok t →
      t.target? i = scanAt scanTarget p i := by
    intro p t hp ht
    obtain ⟨c, rfl⟩ := Blocks.exists_flatten_of_resolve hp ht
    exact (Blocks.isTableOf_flatten hp ht).target_eq_scan i
  have hplace : ∀ x : Option Operation,
      x.map Operation.place = (x.map Operation.shape).map fun s => s.1.toNat := by
    intro x
    cases x <;> rfl
  rw [hscan hi hr, hscan hi' hr', scanAt, scanAt, hplace, hplace]
  congr 1
  have hat := getElem?_shape h i
  cases hop : prog[i]? with
  | none =>
    rw [hop, Option.map_none] at hat
    rw [Option.map_eq_none_iff.1 hat.symm]
    rfl
  | some op =>
    rw [hop, Option.map_some] at hat
    obtain ⟨op', hop', hs⟩ := Option.map_eq_some_iff.1 hat.symm
    rw [hop']
    refine scanTarget_shape hs.symm ?_ ?_
    · rw [List.map_reverse, List.map_take, h, ← List.map_take, ← List.map_reverse]
    · rw [List.map_drop, h, ← List.map_drop]

end

/-- Programs with alike operations have the same shape. -/
theorem shapes_of_alike {prog prog' : Program} (hi : prog.Indexed) (hi' : prog'.Indexed)
    (h : List.Forall₂ Operation.Alike prog prog') :
    prog.map Operation.shape = prog'.map Operation.shape := by
  apply List.ext_getElem?
  intro i
  rw [List.getElem?_map, List.getElem?_map]
  by_cases hlt : i < prog.length
  · have hlt' : i < prog'.length := h.length_eq ▸ hlt
    have hop := List.getElem?_eq_getElem hlt
    have hop' := List.getElem?_eq_getElem hlt'
    have hindex := (hi i _ hop).trans (hi' i _ hop').symm
    have hact := (h.get hlt hlt').action
    rw [hop, hop', Option.map_some, Option.map_some, Operation.shape, Operation.shape, hindex]
    exact congrArg (fun a => some (_, a)) hact
  · have hlt' : ¬i < prog'.length := h.length_eq ▸ hlt
    rw [List.getElem?_eq_none (Nat.le_of_not_lt hlt), List.getElem?_eq_none (Nat.le_of_not_lt hlt')]

namespace Codegen

open Assembly Verify

/-! ## Code -/

section
variable {prog prog' : Program} {table table' : BlockTable} {op op' : Operation}
  (hshape : prog.map Operation.shape = prog'.map Operation.shape)
  (htarget : ∀ i : Nat, table.target? i = table'.target? i)
include hshape htarget

/-- The partner of an operation has the same label. -/
theorem partner_of_shapes (ho : op.shape = op'.shape) (hidx : op.index = op.place) {label : Text}
    (h : partner prog table op = .ok label) : partner prog' table' op' = .ok label := by
  have hindex : op'.index = op.place := (congrArg Prod.fst ho).symm.trans hidx
  unfold partner at h ⊢
  rw [hindex, ← htarget]
  rw [hidx] at h
  cases ht : table.target? op.place with
  | none => simp [ht] at h
  | some place =>
    simp only [ht] at h ⊢
    obtain ⟨t, hat, rfl⟩ := Failure.of_map_ok h
    have hop : prog[place]? = some t := by
      unfold Blocks.operationAt at hat
      split at hat <;> cases hat
      assumption
    have hsame := getElem?_shape hshape place
    rw [hop, Option.map_some] at hsame
    obtain ⟨t', hop', hs⟩ := Option.map_eq_some_iff.1 hsame.symm
    obtain ⟨hi, ha⟩ := Prod.mk.inj hs
    simp only [Blocks.operationAt, hop', Except.map, Operation.label, hi, ha]

/-- Operations that are alike have the same code. -/
theorem code_of_alike (halike : op.Alike op') (hidx : op.index = op'.index)
    (hplace : op.index = op.place) {size : Int} {ls ls' : List Line}
    (h : code prog table size op = .ok ls) (h' : code prog' table' size op' = .ok ls') :
    ls = ls' := by
  have ho : op.shape = op'.shape := by rw [Operation.shape, Operation.shape, hidx, halike.action]
  have hlabel : op'.label = op.label := by
    rw [Operation.label, Operation.label, hidx, halike.action]
  unfold code at h h'
  rw [← halike.action] at h'
  cases ha : op.action with
  | keyword k =>
    simp only [ha] at h h'
    cases k with
    | ifKw => cases h; cases h'; rfl
    | whileKw | endifKw =>
      simp only [keyword, hlabel] at h h'
      cases h; cases h'; rfl
    | endKw => cases h
    | elifKw | elseKw | doKw | doneKw | breakKw =>
      simp only [keyword, hlabel] at h h'
      obtain ⟨l, hl, rfl⟩ := Failure.of_map_ok h
      rw [partner_of_shapes hshape htarget ho hplace hl] at h'
      cases h'
      rfl
  | pushInt =>
    simp only [ha] at h h'
    rw [← halike.value ha] at h'
    cases h; cases h'; rfl
  | pushString =>
    simp only [ha] at h h'
    cases hd : Literal.unquote op.token.text with
    | error e => simp [hd] at h
    | ok data =>
      cases hd' : Literal.unquote op'.token.text with
      | error e => simp [hd'] at h'
      | ok data' =>
        have hlen := halike.length ha data data' hd hd'
        simp only [hd, hd', ← hidx, ← hlen] at h h'
        cases h; cases h'; rfl
  | pushCString | pushArray =>
    simp only [ha, ← hidx] at h h'
    cases h; cases h'; rfl
  | primitive p =>
    simp only [ha, ← hidx] at h h'
    cases hp : primitive size op.index p with
    | none => simp [hp] at h
    | some lines =>
      rw [hp] at h h'
      cases h; cases h'; rfl
  | unassigned n => simp [ha] at h

/-- Lines of alike operations differ in their comments only. -/
theorem filter_opLines {ops ops' : Program} {size : Int}
    (h : List.Forall₂ Operation.Alike ops ops')
    (hs : ops.map Operation.shape = ops'.map Operation.shape)
    (hcode : ∀ o ∈ ops, o.index = o.place ∧
      code prog table size o = .ok (template prog table size o))
    (hcode' : ∀ o ∈ ops', code prog' table' size o = .ok (template prog' table' size o)) :
    (ops.flatMap (opLines prog table size)).filter (!Line.isRemark ·)
      = (ops'.flatMap (opLines prog' table' size)).filter (!Line.isRemark ·) := by
  induction h with
  | nil => rfl
  | cons halike hrest ih =>
    obtain ⟨hshapes, hs⟩ := List.cons.inj hs
    obtain ⟨⟨hplace, hc⟩, hcode⟩ := List.forall_mem_cons.1 hcode
    obtain ⟨hc', hcode'⟩ := List.forall_mem_cons.1 hcode'
    have htemplate :=
      code_of_alike hshape htarget halike (congrArg Prod.fst hshapes) hplace hc hc'
    rw [List.flatMap_cons, List.flatMap_cons, List.filter_append, List.filter_append,
      ih hs hcode hcode', opLines, opLines, htemplate]
    rfl

end

/-! ## Compiled programs -/

/-- The line that names an operation in the code. -/
def commentOf (op : Operation) : Text := Line.text (.comment (remark op))

/-- What an operation is called stays on one line, which is read as nothing. -/
theorem commentOf_inert (op : Operation) :
    Text.byte '\n' ∉ commentOf op ∧ isComment (commentOf op) = true ∧
      ∀ n, parse (commentOf op) n = .ok {} := by
  have hsound : (Line.comment (remark op)).Sound := oneLine_remark op
  exact ⟨Line.oneLine hsound, Line.isComment_text hsound, fun n => Line.parse_text hsound n⟩

section
variable {size : Int} {r : Compiled} (h : r.Made size)
include h

theorem artifact_sound : r.artifact.Sound := by
  obtain ⟨hs, hlayout⟩ := layout_of_made h
  have hi := h.indexed
  have hr := h.blocks
  obtain ⟨c, hc⟩ := Blocks.exists_flatten_of_resolve hi hr
  rw [hlayout]
  rw [← hc] at hi hr hs ⊢
  exact layout_sound hi hr hs _

/-- Every operation of a compiled program has its template, which holds no comment. -/
theorem template_made {op : Operation} (ho : op ∈ r.program) :
    code r.program r.blocks (bufferSizeFor size) op
      = .ok (template r.program r.blocks (bufferSizeFor size) op) ∧
    ∀ l ∈ template r.program r.blocks (bufferSizeFor size) op, ¬l.isRemark = true := by
  have hs := (layout_of_made h).1
  have hi := h.indexed
  have hr := h.blocks
  obtain ⟨c, hc⟩ := Blocks.exists_flatten_of_resolve hi hr
  rw [← hc] at hi hr hs ho ⊢
  refine ⟨code_ok hi hr _ ho (hs op ho), fun l hl hremark => ?_⟩
  have hsimple := (templateOf_template hi hr _ ho (hs op ho)).simple l hl
  cases l with
  | comment t => cases hsimple
  | _ => cases hremark

/-- The comments in the code of a program: one for each operation, and one for its end. -/
theorem comments_made : (codeLines r.artifact.render).filter isComment
    = r.program.map commentOf ++ [Line.text (.comment "exit(0)")] := by
  have hsound := artifact_sound h
  have hcode : r.artifact.code.toList.filter Line.isRemark
      = r.program.map (fun op => .comment (remark op)) ++ [.comment "exit(0)"] := by
    have hops : (r.program.flatMap (opLines r.program r.blocks (bufferSizeFor size))).filter
        Line.isRemark = r.program.map fun op => .comment (remark op) := by
      rw [List.filter_flatMap, List.map_eq_flatMap, List.flatMap_def, List.flatMap_def]
      refine congrArg _ (List.map_congr_left fun op ho => ?_)
      rw [opLines, List.filter_cons_of_pos rfl, List.filter_eq_nil_iff.2 (template_made h ho).2]
    have hstart : preamble.filter Line.isRemark = [] := rfl
    have hend : epilogue.filter Line.isRemark = [.comment "exit(0)"] := rfl
    rw [(layout_of_made h).2, layout, List.filter_append, List.filter_append, hstart, hops, hend,
      List.nil_append]
  have hlast : [([] : Text)].filter isComment = [] := rfl
  rw [codeLines_render hsound, List.filter_append, filter_isComment hsound.code, hcode,
    List.map_append, List.map_map, hlast, List.append_nil]
  rfl

end

/-- **Source text cannot leak into code.** When two sources compile to programs with alike operations,
position by position, the lines of their code are read alike once the comments are dropped, whatever
the tokens say. The comments are one line for each operation and a last one; that of an operation is
read as neither a label nor an instruction, with any token. -/
theorem code_independent_of_wording {lib lib' : Library} {file file' source source' : Text}
    {size : Int} {r r' : Compiled} (h : compile lib file source size = .ok r)
    (h' : compile lib' file' source' size = .ok r')
    (hops : List.Forall₂ Operation.Alike r.program r'.program) :
    (∃ ps, ReadAs (statements r.artifact.render) ps ∧ ReadAs (statements r'.artifact.render) ps) ∧
    (codeLines r.artifact.render).filter isComment
      = r.program.map commentOf ++ [Line.text (.comment "exit(0)")] ∧
    ∀ op : Operation, Text.byte '\n' ∉ commentOf op ∧ ∀ n, parse (commentOf op) n = .ok {} := by
  obtain ⟨-, hmade⟩ := compile_eq_ok_iff.1 h
  obtain ⟨-, hmade'⟩ := compile_eq_ok_iff.1 h'
  have hshape := shapes_of_alike hmade.indexed hmade'.indexed hops
  have htarget := target?_of_shapes hshape hmade.indexed hmade'.indexed hmade.blocks hmade'.blocks
  have hlines := filter_opLines hshape htarget hops hshape
    (fun o ho => ⟨index_eq_place hmade.indexed ho, (template_made hmade ho).1⟩)
    fun o ho => (template_made hmade' ho).1
  have hcode : r.artifact.code.toList.filter (!Line.isRemark ·)
      = r'.artifact.code.toList.filter (!Line.isRemark ·) := by
    rw [(layout_of_made hmade).2, (layout_of_made hmade').2, layout, layout]
    simp only [List.filter_append, hlines]
  refine ⟨⟨_, readAs_statements (artifact_sound hmade), ?_⟩, comments_made hmade, fun op => ?_⟩
  · rw [hcode]
    exact readAs_statements (artifact_sound hmade')
  · exact ⟨(commentOf_inert op).1, (commentOf_inert op).2.2⟩

/-- A string and an array that quote assembly, the array over two lines. -/
def quoting : Program :=
  [written 0 .pushString .string "\"a;b\"" 1,
   written 1 .pushArray .array "ARRAY(ret,\n\"; nop\")" 7]

/-- A string of the length of that of `quoting`, and another array. -/
def requoting : Program :=
  [written 0 .pushString .string "\"\\\"x\\\"\"" 1, written 1 .pushArray .array "ARRAY(0)" 9]

theorem code_independent_of_wording_quoting : ∃ r r',
    compile (.ofList "/" []) "a" "\"a;b\" ARRAY(ret,\n\"; nop\")" 0 = .ok r ∧
    compile (.ofList "/" []) "a" "\"\\\"x\\\"\" ARRAY(0)" 0 = .ok r' ∧
    (∃ ps, ReadAs (statements r.artifact.render) ps ∧ ReadAs (statements r'.artifact.render) ps) ∧
    (codeLines r.artifact.render).filter isComment = List.map Text.ofString
      ["    ; 0 \"a;b\"", "    ; 1 ARRAY(ret, \"; nop\")", "    ; exit(0)"] := by
  have hl : Lexer.tokens "a" "\"a;b\" ARRAY(ret,\n\"; nop\")"
      = .ok (quoting.map (·.token)) := by decide +kernel
  have hl' : Lexer.tokens "a" "\"\\\"x\\\"\" ARRAY(0)"
      = .ok (requoting.map (·.token)) := by decide +kernel
  have hp : Program.ofTokens (quoting.map (·.token)) = .ok quoting := by decide +kernel
  have hp' : Program.ofTokens (requoting.map (·.token)) = .ok requoting := by decide +kernel
  have hsteps : Check.steps quoting [] = .ok [.ptr (.data (.array 1)), .ptr (.data (.string 0)),
      .known 3] := by decide +kernel
  have hsteps' : Check.steps requoting [] = .ok [.ptr (.data (.array 1)), .ptr (.data (.string 0)),
      .known 3] := by decide +kernel
  have hb : Blocks.resolve quoting = .ok (.empty 2) := by decide +kernel
  have hb' : Blocks.resolve requoting = .ok (.empty 2) := by decide +kernel
  obtain ⟨a, hr⟩ := exists_compile (.ofList "/" []) (source_of_tokens hl (by decide)) hp
    (Check.run_of_steps hsteps) hb 0
  obtain ⟨a', hr'⟩ := exists_compile (.ofList "/" []) (source_of_tokens hl' (by decide)) hp'
    (Check.run_of_steps hsteps') hb' 0
  have hstring : Literal.unquote "\"a;b\"" = .ok [97, 59, 98] := by decide +kernel
  have hstring' : Literal.unquote "\"\\\"x\\\"\"" = .ok [34, 120, 34] := by decide +kernel
  have halike : List.Forall₂ Operation.Alike quoting requoting := by
    refine .cons ⟨rfl, nofun, fun _ data data' h h' => ?_⟩ (.cons ⟨rfl, nofun, nofun⟩ .nil)
    obtain rfl := Except.ok.inj (hstring.symm.trans h)
    obtain rfl := Except.ok.inj (hstring'.symm.trans h')
    rfl
  obtain ⟨hread, hcomments, -⟩ := code_independent_of_wording hr hr' halike
  have hnames : quoting.map commentOf ++ [Line.text (.comment "exit(0)")] = List.map Text.ofString
      ["    ; 0 \"a;b\"", "    ; 1 ARRAY(ret, \"; nop\")", "    ; exit(0)"] := by
    decide +kernel
  exact ⟨_, _, hr, hr', hread, hcomments.trans hnames⟩

end Codegen

end StackLang
