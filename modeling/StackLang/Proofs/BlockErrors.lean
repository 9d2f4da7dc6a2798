import StackLang.Proofs.BlockResolver
import StackLang.Proofs.FrontEnd

/-!
# How blocks are refused

The resolver of a program with its operations in their places uses no place outside the table: what
an open block remembers are places of the program, and a branch that awaits no `DO` has had one. So
all that it can fail for is the structure of the blocks, and it blames an operation for it.

- `Blocks.State.Within`: what holds of the states of a resolver.
- `Blocks.ends_step`, `Blocks.ends_resolve`: it is kept, and an operation is blamed.
-/

set_option autoImplicit false

namespace StackLang

/-- A place of a program with `n` operations. -/
def PlaceBelow (n : Nat) (place : Option Nat) : Prop := ∃ i, place = some i ∧ i < n

theorem Placed.placeBelow {prog : Program} {op : Operation} (h : Placed prog op) :
    PlaceBelow prog.length op.place? := ⟨op.place, h.1, h.lt⟩

/-- An open block that remembers places of a program with `n` operations. -/
structure OpenBlock.Within (n : Nat) (b : OpenBlock) : Prop where
  start : PlaceBelow n b.start
  awaiting : b.awaiting ≠ none → PlaceBelow n b.awaiting
  test : b.test ≠ none → PlaceBelow n b.test
  exits : ∀ place ∈ b.exits, PlaceBelow n place
  /-- A branch that awaits no `DO` has had one, unless it is the last. -/
  tested : b.awaiting = none → b.sawElse = false → b.test ≠ none
  loop : b.isLoop = true → b.sawElse = false

namespace BlockTable

section
variable {E : Failure → Prop} {prog : Program} {t : BlockTable} {place value : Option Nat}

theorem ends_setEntry {a : Array (Option Nat)} (h : PlaceBelow a.size place) :
    Ends E (fun a' => a'.size = a.size) (setEntry a place value) := by
  obtain ⟨i, rfl, hi⟩ := h
  simp only [setEntry, hi, dif_pos]
  exact Array.size_set _

theorem Fits.ends_setOpener (ht : t.Fits prog) (h : PlaceBelow prog.length place) :
    Ends E (Fits · prog) (t.setOpener place value) :=
  (ends_setEntry (ht.1 ▸ h)).map fun _ ha => ⟨ha.trans ht.1, ht.2⟩

theorem Fits.ends_setTarget (ht : t.Fits prog) (h : PlaceBelow prog.length place) :
    Ends E (Fits · prog) (t.setTarget place value) :=
  (ends_setEntry (ht.2 ▸ h)).map fun _ ha => ⟨ht.1, ha.trans ht.2⟩

theorem Fits.ends_setTargets (ht : t.Fits prog) {places : List (Option Nat)}
    (h : ∀ place ∈ places, PlaceBelow prog.length place) :
    Ends E (Fits · prog) (t.setTargets places value) := by
  induction places generalizing t with
  | nil => exact ht
  | cons place places ih =>
    have hset : Ends E (Fits · prog) (t.setTarget place value) :=
      ht.ends_setTarget (h place (.head _))
    simp only [setTargets, List.foldlM_cons]
    cases hs : t.setTarget place value with
    | error f => exact hset.of_error hs
    | ok t' => exact ih (hset.of_ok hs) fun place hp => h place (.tail _ hp)

end

end BlockTable

namespace Blocks

/-- A state of the resolver that remembers places of the program. -/
structure State.Within (prog : Program) (st : State) : Prop where
  table : st.table.Fits prog
  blocks : ∀ b ∈ st.blocks, b.Within prog.length
  last : st.last ≠ none → PlaceBelow prog.length st.last

/-- The kinds of errors for which blocks are refused. -/
def errorKinds : List ErrorKind := [.ambiguousDo, .ambiguousBreak, .unbalancedBlock]

/-- The kinds of errors for which an operation with an action is refused. -/
def refusalKinds : Action → List ErrorKind
  | .keyword .ifKw | .keyword .whileKw => []
  | .keyword .doKw => [.ambiguousDo]
  | .keyword .breakKw => [.ambiguousBreak]
  | .keyword _ => [.unbalancedBlock]
  | .unassigned _ => [.notImplemented]
  | _ => []

theorem refusalKinds_subset {op : Operation} (h : op.Sound) :
    refusalKinds op.action ⊆ errorKinds := by
  unfold Operation.Sound at h
  cases ha : op.action with
  | keyword k => cases k <;> decide
  | unassigned code => simp [ha] at h
  | _ => exact List.nil_subset _

theorem operationAt_of_placeBelow {prog : Program} {place : Nat}
    (h : PlaceBelow prog.length (some place)) :
    ∃ op ∈ prog, operationAt prog place = .ok op := by
  obtain ⟨i, hi, hlt⟩ := h
  obtain rfl := Option.some.inj hi
  exact ⟨_, List.getElem_mem hlt, by rw [operationAt, List.getElem?_eq_getElem hlt]⟩

theorem within_addExit {n : Nat} {place : Option Nat} (hp : PlaceBelow n place)
    {bs bs' : List OpenBlock} (hbs : ∀ b ∈ bs, b.Within n) (h : addExit place bs = some bs') :
    ∀ b ∈ bs', b.Within n := by
  induction bs generalizing bs' with
  | nil => cases h
  | cons b bs ih =>
    obtain ⟨hb, hrest⟩ := List.forall_mem_cons.1 hbs
    rw [addExit] at h
    split at h
    · cases h
      refine List.forall_mem_cons.2 ⟨?_, hrest⟩
      have hexits : ∀ p ∈ b.exits ++ [place], PlaceBelow n p :=
        List.forall_mem_append.2 ⟨hb.exits, List.forall_mem_singleton.2 hp⟩
      exact { hb with exits := hexits }
    · obtain ⟨bs'', hbs'', rfl⟩ := Option.map_eq_some_iff.1 h
      exact List.forall_mem_cons.2 ⟨hb, ih hrest hbs''⟩

section
variable {prog : Program} {st : State} {op : Operation} (hst : st.Within prog)
  (hop : Placed prog op)

theorem ends_requireTest (op : Operation) {b : OpenBlock} (hb : b.Within prog.length) :
    Ends (Failure.Blames [.unbalancedBlock] op.loc) (fun _ => b.awaiting = none)
      (requireTest prog b op) := by
  unfold requireTest
  split
  · assumption
  · rename_i place hplace
    have hbelow := hb.awaiting (by rw [hplace]; exact Option.some_ne_none _)
    obtain ⟨opener, -, hat⟩ := operationAt_of_placeBelow (hplace ▸ hbelow)
    rw [hat]
    exact ends_error (by simp [Cause.kind])

include hst

/-- The innermost block, when it is of a sort. -/
theorem within_innermost {isLoop : Bool} {b : OpenBlock} {bs : List OpenBlock}
    (h : innermost? isLoop st = some (b, bs)) :
    b.isLoop = isLoop ∧ b.Within prog.length ∧ ∀ b ∈ bs, b.Within prog.length := by
  unfold innermost? at h
  split at h
  · rename_i b' bs' hbs
    split at h
    · rename_i hl
      cases h
      obtain ⟨hb, hrest⟩ := List.forall_mem_cons.1 (hbs ▸ hst.blocks)
      exact ⟨hl, hb, hrest⟩
    · cases h
  · cases h

include hop

theorem within_opening (isLoop : Bool) : (opening isLoop op st).Within prog := by
  have hplace := hop.placeBelow
  refine ⟨hst.table, List.forall_mem_cons.2 ⟨?_, hst.blocks⟩, hst.last⟩
  refine ⟨hplace, fun _ => hplace, fun h => absurd rfl h, nofun, ?_, fun _ => rfl⟩
  intro hnone
  rw [hop.1] at hnone
  cases hnone

theorem ends_takeTest :
    Ends (Failure.Blames [.ambiguousDo] op.loc) (State.Within prog) (takeTest prog op st) := by
  have hplace := hop.placeBelow
  unfold takeTest
  split
  · exact ends_error (by simp [Cause.kind])
  rename_i place hlast
  have hbelow := hst.last (by rw [hlast]; exact Option.some_ne_none _)
  obtain ⟨previous, -, hat⟩ := operationAt_of_placeBelow (hlast ▸ hbelow)
  rw [hat]
  dsimp only
  split
  · exact ends_error (by simp [Cause.kind])
  split
  · exact ends_error (by simp [Cause.kind])
  rename_i b bs hbs
  obtain ⟨hb, hrest⟩ := List.forall_mem_cons.1 (hbs ▸ hst.blocks)
  split
  · exact ends_error (by simp [Cause.kind])
  · refine (hst.table.ends_setOpener hplace).map fun table htable => ?_
    refine ⟨htable, List.forall_mem_cons.2 ⟨?_, hrest⟩, hst.last⟩
    refine ⟨hb.start, fun h => absurd rfl h, fun _ => hplace, hb.exits, ?_, hb.loop⟩
    intro _ _ hnone
    rw [hop.1] at hnone
    cases hnone

theorem ends_takeBranch (isElse : Bool) :
    Ends (Failure.Blames [.unbalancedBlock] op.loc) (State.Within prog)
      (takeBranch prog isElse op st) := by
  have hplace := hop.placeBelow
  unfold takeBranch
  split
  · exact ends_error (by simp [Cause.kind])
  rename_i b bs hbs
  obtain ⟨hl, hb, hrest⟩ := within_innermost hst hbs
  have hrequire := ends_requireTest op hb
  split
  · exact ends_error (by simp [Cause.kind])
  rename_i helse
  split
  · rename_i f hf
    exact hrequire.of_error hf
  rename_i hok
  have hnone := hrequire.of_ok hok
  have htest := hb.test (hb.tested hnone (Bool.eq_false_iff.2 helse))
  refine (hst.table.ends_setTarget htest).map fun table htable => ?_
  refine ⟨htable, List.forall_mem_cons.2 ⟨?_, hrest⟩, hst.last⟩
  have hexits : ∀ p ∈ b.exits ++ [op.place?], PlaceBelow prog.length p :=
    List.forall_mem_append.2 ⟨hb.exits, List.forall_mem_singleton.2 hplace⟩
  have hloop : b.isLoop = true → isElse = false := fun h =>
    absurd (hl.symm.trans h) Bool.false_ne_true
  refine ⟨hb.start, fun h => ?_, fun h => absurd rfl h, hexits, fun h helse => ?_, hloop⟩
  · cases isElse with
    | false => exact hplace
    | true => exact hb.awaiting h
  · -- An `ELIF` awaits its `DO`.
    obtain rfl : isElse = false := helse
    have h : op.place? = none := h
    rw [hop.1] at h
    cases h

omit hop in
theorem ends_closeIf :
    Ends (Failure.Blames [.unbalancedBlock] op.loc) (State.Within prog) (closeIf prog op st) := by
  unfold closeIf
  split
  · exact ends_error (by simp [Cause.kind])
  rename_i b bs hbs
  obtain ⟨-, hb, hrest⟩ := within_innermost hst hbs
  split
  · rename_i f hf
    exact (ends_requireTest op hb).of_error hf
  have hplaces : ∀ p ∈ (if b.test.isSome then [b.test] else []) ++ b.exits,
      PlaceBelow prog.length p := by
    refine List.forall_mem_append.2 ⟨fun p hp => ?_, hb.exits⟩
    split at hp
    · rename_i hsome
      obtain rfl := List.mem_singleton.1 hp
      exact hb.test (Option.isSome_iff_ne_none.1 hsome)
    · cases hp
  exact (hst.table.ends_setTargets hplaces).map fun table htable => ⟨htable, hrest, hst.last⟩

theorem ends_closeLoop :
    Ends (Failure.Blames [.unbalancedBlock] op.loc) (State.Within prog) (closeLoop prog op st) := by
  have hplace := hop.placeBelow
  unfold closeLoop
  split
  · exact ends_error (by simp [Cause.kind])
  rename_i b bs hbs
  obtain ⟨hl, hb, hrest⟩ := within_innermost hst hbs
  have hrequire := ends_requireTest op hb
  split
  · rename_i f hf
    exact hrequire.of_error hf
  rename_i hok
  have htest := hb.test (hb.tested (hrequire.of_ok hok) (hb.loop hl))
  have hfirst : Ends (Failure.Blames [.unbalancedBlock] op.loc) (BlockTable.Fits · prog)
      (st.table.setTarget b.test op.place?) := hst.table.ends_setTarget htest
  split
  · rename_i f hf
    exact hfirst.of_error hf
  rename_i table htable
  have hsecond : Ends (Failure.Blames [.unbalancedBlock] op.loc) (BlockTable.Fits · prog)
      (table.setTarget op.place? b.start) := (hfirst.of_ok htable).ends_setTarget hplace
  split
  · rename_i f hf
    exact hsecond.of_error hf
  rename_i table' htable'
  have hplaces : ∀ p ∈ b.start :: b.exits, PlaceBelow prog.length p :=
    List.forall_mem_cons.2 ⟨hb.start, hb.exits⟩
  exact ((hsecond.of_ok htable').ends_setTargets hplaces).map
    fun table htable => ⟨htable, hrest, hst.last⟩

theorem ends_takeBreak :
    Ends (Failure.Blames [.ambiguousBreak] op.loc) (State.Within prog) (takeBreak op st) := by
  unfold takeBreak
  split
  · exact ends_error (by simp [Cause.kind])
  · rename_i bs hbs
    exact ⟨hst.table, within_addExit hop.placeBelow hst.blocks hbs, hst.last⟩

/-- **One operation** keeps the state within the program, or is blamed. -/
theorem ends_step :
    Ends (Failure.Blames (refusalKinds op.action) op.loc) (State.Within prog) (step prog st op) := by
  unfold step
  split
  · rename_i hs
    have hvisit : Ends (Failure.Blames (refusalKinds op.action) op.loc) (State.Within prog)
        (visit prog op st) := by
      unfold visit
      cases ha : op.action with
      | keyword k =>
        cases k with
        | ifKw | whileKw => exact within_opening hst hop _
        | doKw => exact ends_takeTest hst hop
        | elifKw | elseKw => exact ends_takeBranch hst hop _
        | endifKw => exact ends_closeIf hst
        | doneKw => exact ends_closeLoop hst hop
        | breakKw => exact ends_takeBreak hst hop
        | endKw => exact ends_error (by simp [Cause.kind, refusalKinds])
      | unassigned code => exact ends_error (by simp [Cause.kind, refusalKinds])
      | pushInt | pushString | pushCString | pushArray | primitive p =>
        simp [ha, Action.isStructural] at hs
    exact hvisit.map fun st' h => ⟨h.table, h.blocks, fun _ => hop.placeBelow⟩
  · exact hst

end

/-- A failure that blames an operation of a program. -/
def Refuses (prog : Program) (f : Failure) : Prop := ∃ op ∈ prog, f.Blames errorKinds op.loc

theorem ends_foldlM {prog ops : Program} (hops : ∀ op ∈ ops, op.Sound ∧ Placed prog op) {st : State}
    (hst : st.Within prog) :
    Ends (Refuses ops) (State.Within prog) (ops.foldlM (step prog) st) := by
  induction ops generalizing st with
  | nil => exact hst
  | cons op ops ih =>
    obtain ⟨⟨ho, hplaced⟩, hrest⟩ := List.forall_mem_cons.1 hops
    have hstep := ends_step hst hplaced
    rw [List.foldlM_cons]
    cases hs : step prog st op with
    | error f =>
      obtain ⟨c, hc, hk⟩ := hstep.of_error hs
      exact ⟨op, .head _, c, hc, refusalKinds_subset ho hk⟩
    | ok next =>
      exact (ih hrest (hstep.of_ok hs)).weaken fun f ⟨o, hm, hf⟩ => ⟨o, .tail _ hm, hf⟩

theorem within_start (prog : Program) : (start prog).Within prog :=
  ⟨BlockTable.fits_empty prog, nofun, fun h => absurd rfl h⟩

/-- **The resolver blames an operation of its program**, if any. -/
theorem ends_resolve {prog : Program} (hs : prog.Sound) (hi : prog.Indexed) :
    Ends (Refuses prog) (fun _ => True) (resolve prog) := by
  have hfold := ends_foldlM (fun op ho => ⟨hs op ho, hi.placed ho⟩) (within_start prog)
  unfold resolve
  split
  · rename_i f hf
    exact hfold.of_error hf
  rename_i st hst
  split
  · trivial
  rename_i b bs hbs
  have hwithin := (hfold.of_ok hst).blocks
  obtain ⟨place, hplace, hlt⟩ := (hwithin b (hbs ▸ .head _)).start
  obtain ⟨opener, hmem, hat⟩ := operationAt_of_placeBelow ⟨place, rfl, hlt⟩
  rw [hplace]
  simp only [hat]
  exact ⟨opener, hmem, _, rfl, by simp [Cause.kind, errorKinds]⟩

end Blocks

end StackLang
