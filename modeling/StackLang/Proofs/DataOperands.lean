import Mathlib.Data.List.Forall2
import StackLang.Proofs.DataSection

/-!
# Bytes as operands

Bytes are written between commas, as runs of characters in double quotes and as decimal numbers. The
reader of assembly lines cuts what was written at the same commas, since those among the bytes stand in
quotes; and so do the bytes that would start a comment, end a label, open another kind of quotes or name
a symbol.

- `Denotes`: the operands that bytes are written as, with the bytes that they stand for.
- `operands_formatBytes`: the operands are found again.
- `formatted_bytes_inert`: the operands give the bytes back, and nothing in them is taken for anything
  else.
-/

set_option autoImplicit false

namespace StackLang.Assembly

open Text Verify

/-- The text of an operand, and the bytes that it stands for. -/
inductive Denotes : Text → Text → Prop
  | number (b : UInt8) : Denotes (ofNat b.toNat) [b]
  /-- Printable characters in double quotes. -/
  | run {chars : Text} (nonempty : chars ≠ [])
      (printable : ∀ b ∈ chars, 0x20 ≤ b ∧ b < 0x7F ∧ b ≠ byte '"') :
    Denotes ([byte '"'] ++ chars ++ [byte '"']) chars

namespace DataOperand

theorem ne_run_nil (data : Text) : ∀ o ∈ ofBytes data, o ≠ .run [] := by
  induction data with
  | nil => simp [ofBytes]
  | cons b data ih =>
    change ∀ o ∈ cons b (ofBytes data), o ≠ .run []
    unfold cons
    split
    · split
      · rename_i r rest hops
        rw [hops] at ih
        exact List.forall_mem_cons.2 ⟨by simp, (List.forall_mem_cons.1 ih).2⟩
      · exact List.forall_mem_cons.2 ⟨by simp, ih⟩
    · exact List.forall_mem_cons.2 ⟨by simp, ih⟩

theorem denotes_render {o : DataOperand} (h : o.Plain) (hne : o ≠ .run []) :
    Denotes o.render o.values := by
  cases o with
  | number b => exact .number b
  | run chars =>
    refine .run (fun hnil => hne (by rw [hnil])) fun b hb => ?_
    have hb : isPlain b = true := h b hb
    simpa [isPlain, and_assoc] using hb

end DataOperand

/-- **The operands of bytes are found again**: no comma among the bytes separates operands. -/
theorem operands_formatBytes (sym data : Text) :
    operands (formatBytes data) = (DataLine.bytes sym data).operands := by
  rw [formatBytes_eq sym data]
  exact operands_join (DataLine.operands_ne_nil _) fun o ho => (DataLine.read_bytes sym data o ho).1.neat

theorem neat_formatBytes (data : Text) : Neat (formatBytes data) := by
  rw [formatBytes_eq [] data]
  exact neat_join (DataLine.operands_ne_nil _) fun o ho => (DataLine.read_bytes [] data o ho).1.neat

/-- **Bytes can be read from their operands, and do nothing else.** Each operand of bytes is a number or
characters in quotes, and what the operands stand for, one after the other, is the bytes. It is read from
the texts alone; no bytes at all are written as a zero. Whatever the bytes are, what is written has no
comment, no label and no symbol. -/
theorem formatted_bytes_inert (data : Text) :
    (data ≠ [] → ∃ parts, List.Forall₂ Denotes (operands (formatBytes data)) parts ∧
      parts.flatten = data) ∧
    bytesOf (operands (formatBytes data)) = some (if data = [] then [0] else data) ∧
    (∀ b ∈ [byte ';', byte ':'], indexUnquoted? b none 0 (formatBytes data) = none) ∧
    ∀ o ∈ operands (formatBytes data), references o = [] := by
  have hoperands := operands_formatBytes [] data
  refine ⟨fun hne => ?_, ?_, ?_, ?_⟩
  · refine ⟨(DataOperand.ofBytes data).map DataOperand.values, ?_, ?_⟩
    · have hof : (DataLine.bytes [] data).operands
          = (DataOperand.ofBytes data).map DataOperand.render := if_neg (by simpa using hne)
      rw [hoperands, hof, List.forall₂_map_left_iff, List.forall₂_map_right_iff, List.forall₂_same]
      intro o ho
      exact DataOperand.denotes_render (DataOperand.plain_ofBytes data o ho)
        (DataOperand.ne_run_nil data o ho)
    · rw [← List.flatMap_def]
      exact DataOperand.values_ofBytes data
  · rw [hoperands]
    exact bytesOf_operands [] data
  · have hplain := (neat_formatBytes data).plain
    simp only [List.forall_mem_cons, List.not_mem_nil, false_implies, implies_true, and_true]
    constructor
    · exact indexUnquoted?_eq_none (fun hm => (hplain _ hm).2 rfl) 0
    · exact indexUnquoted?_eq_none (fun hm => (hplain _ hm).1 rfl) 0
  · rw [hoperands]
    exact fun o ho => (DataLine.read_bytes [] data o ho).2

/-- Bytes that look like a comment, a label, another string and the end of this one. -/
def troublesome : Text := ("; x: 'a, `b\", rax" : Text) ++ [0, 255]

theorem formatted_bytes_inert_troublesome : troublesome ≠ [] ∧
    operands (formatBytes troublesome)
      = List.map ofString ["\"; x: 'a, `b\"", "34", "\", rax\"", "0", "255"] ∧
    ∃ parts, List.Forall₂ Denotes (operands (formatBytes troublesome)) parts ∧
      parts.flatten = troublesome := by
  have hne : troublesome ≠ [] := by decide
  have hoperands : operands (formatBytes troublesome)
      = List.map ofString ["\"; x: 'a, `b\"", "34", "\", rax\"", "0", "255"] := by decide +kernel
  exact ⟨hne, hoperands, (formatted_bytes_inert troublesome).1 hne⟩

end StackLang.Assembly
