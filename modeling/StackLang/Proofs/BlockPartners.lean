import Mathlib.Data.List.Nodup
import StackLang.Proofs.BlockResolver

/-!
# The block table of a tree

The table that the resolver fills in one pass holds the links of the program's tree and nothing
else.

- `Code.mem_targets_iff`: the links entered as blocks are closed are those of the tree.
- `Code.keys_targets`, `Code.keys_openers`: the operations that have links, by their keywords.
- `Blocks.opener?_iff`, `Blocks.target?_iff`: the entries of the table.
-/

set_option autoImplicit false

namespace StackLang

namespace BlockTree

/-! ## The links that are entered -/

mutual

/-- The targets of a sequence are those entered within it and the exits of its `breaks`. -/
theorem Code.mem_targets_iff {l : Bool} (c : Code l) (exit : Option Operation)
    (o t : Operation) :
    (o, t) ∈ c.targets exit ↔ (o, t) ∈ c.writes ∨ exit = some t ∧ o ∈ c.breaks := by
  match c with
  | .nil => simp [Code.targets, Code.writes, Code.breaks]
  | .plain _ rest => exact rest.mem_targets_iff exit o t
  | .leave op rest =>
    have h := rest.mem_targets_iff exit o t
    simp only [Code.targets, Code.writes, Code.breaks, List.mem_append, List.mem_map,
      Option.mem_toList, List.mem_cons, Prod.mk.injEq, h]
    grind
  | .cond head body chain rest =>
    have h1 := body.mem_targets_iff exit o t
    have h2 := chain.mem_targets_iff exit head.test.1 [] o t
    have h3 := rest.mem_targets_iff exit o t
    simp only [Code.targets, Code.writes, Code.breaks, List.mem_append, List.mem_cons,
      Prod.mk.injEq, h1, h3]
    simp only [List.not_mem_nil, and_false, false_or] at h2
    grind
  | .loop head body done rest =>
    have h1 := body.mem_targets_iff (some done.1) o t
    have h2 := rest.mem_targets_iff exit o t
    simp only [Code.targets, Code.writes, Code.breaks, List.mem_append, List.mem_cons,
      List.mem_map, Prod.mk.injEq, h1, h2]
    grind

/-- The targets of a chain, with those of its conditional's waiting operations. -/
theorem Chain.mem_targets_iff {l : Bool} (chain : Chain l) (exit : Option Operation)
    (test : Operation) (exits : List Operation) (o t : Operation) :
    o = test ∧ t = chain.first ∨ t = chain.endif ∧ o ∈ exits ∨ (o, t) ∈ chain.targets exit ↔
      (o, t) ∈ chain.writes test exits ∨ exit = some t ∧ o ∈ chain.breaks := by
  match chain with
  | .close endif =>
    simp only [Chain.first, Chain.endif, Chain.targets, Chain.writes, Chain.breaks, List.mem_cons,
      List.mem_map, List.not_mem_nil, Prod.mk.injEq]
    grind
  | .otherwise op body endif =>
    have h1 := body.mem_targets_iff exit o t
    simp only [Chain.first, Chain.endif, Chain.targets, Chain.writes, Chain.breaks, List.mem_cons,
      List.mem_append, List.mem_map, Prod.mk.injEq, h1]
    grind
  | .elif head body chain =>
    have h1 := body.mem_targets_iff exit o t
    have h2 := chain.mem_targets_iff exit head.test.1 (exits ++ [head.opener.1]) o t
    simp only [Chain.first, Chain.endif, Chain.targets, Chain.writes, Chain.breaks, List.mem_cons,
      List.mem_append, List.not_mem_nil, or_false, Prod.mk.injEq, h1] at h2 ⊢
    grind

end

/-! ## Where links go -/

/-- Whether control can come to operations with an action from elsewhere. -/
def isLanding : Action → Bool
  | .keyword .elifKw | .keyword .elseKw | .keyword .endifKw | .keyword .doneKw
  | .keyword .whileKw => true
  | _ => false

theorem isLanding_mark {k : Keyword} (m : Mark k) (h : isLanding (.keyword k) = true) :
    isLanding m.1.action = true := by rw [m.2, h]

theorem Chain.landing_first {l : Bool} (chain : Chain l) :
    chain.first ∈ chain.flatten ∧ isLanding chain.first.action = true := by
  cases chain with
  | close endif => exact ⟨by simp [Chain.first, Chain.flatten], isLanding_mark endif rfl⟩
  | otherwise op _ _ => exact ⟨by simp [Chain.first, Chain.flatten], isLanding_mark op rfl⟩
  | elif head _ _ =>
    exact ⟨by simp [Chain.first, Chain.flatten, Head.ops], isLanding_mark head.opener rfl⟩

theorem Chain.landing_endif {l : Bool} : ∀ chain : Chain l,
    chain.endif ∈ chain.flatten ∧ isLanding chain.endif.action = true
  | .close endif => ⟨by simp [Chain.endif, Chain.flatten], isLanding_mark endif rfl⟩
  | .otherwise _ _ endif => ⟨by simp [Chain.endif, Chain.flatten], isLanding_mark endif rfl⟩
  | .elif head _ chain => by
    have h := chain.landing_endif
    exact ⟨by simp [Chain.endif, Chain.flatten, h.1], h.2⟩

mutual

/-- Links go to landings of the sequence, or to the exit. -/
theorem Code.landing {l : Bool} (c : Code l) {exit : Option Operation} {o t : Operation}
    (h : (o, t) ∈ c.targets exit) :
    exit = some t ∨ t ∈ c.flatten ∧ isLanding t.action = true := by
  match c with
  | .nil => cases h
  | .plain _ rest =>
    have := rest.landing h
    grind [Code.flatten]
  | .leave op rest =>
    simp only [Code.targets, List.mem_append, List.mem_map, Option.mem_toList, Prod.mk.injEq] at h
    rcases h with ⟨t', ht, -, rfl⟩ | h
    · exact .inl ht
    · have := rest.landing h
      grind [Code.flatten]
  | .cond head body chain rest =>
    simp only [Code.targets, List.mem_cons, List.mem_append, Prod.mk.injEq] at h
    simp only [Code.flatten, List.mem_append]
    rcases h with ⟨-, rfl⟩ | h | h | h
    · have := chain.landing_first
      grind
    · have := body.landing h
      grind
    · have := chain.landing h
      grind
    · have := rest.landing h
      grind
  | .loop head body done rest =>
    simp only [Code.targets, List.mem_cons, List.mem_append, Prod.mk.injEq] at h
    simp only [Code.flatten, List.mem_append, List.mem_cons, Head.ops]
    have hdone : isLanding done.1.action = true := isLanding_mark done rfl
    have hopen : isLanding head.opener.1.action = true := isLanding_mark head.opener rfl
    rcases h with ⟨-, rfl⟩ | ⟨-, rfl⟩ | h | ⟨-, rfl⟩ | h
    · grind
    · grind
    · have := body.landing h
      grind
    · grind
    · have := rest.landing h
      grind

/-- Links of a chain go to landings of the chain, or to the exit. -/
theorem Chain.landing {l : Bool} (chain : Chain l) {exit : Option Operation} {o t : Operation}
    (h : (o, t) ∈ chain.targets exit) :
    exit = some t ∨ t ∈ chain.flatten ∧ isLanding t.action = true := by
  match chain with
  | .close _ => cases h
  | .otherwise op body endif =>
    simp only [Chain.targets, List.mem_cons, Prod.mk.injEq] at h
    simp only [Chain.flatten, List.mem_cons, List.mem_append]
    have hend : isLanding endif.1.action = true := isLanding_mark endif rfl
    rcases h with ⟨-, rfl⟩ | h
    · grind
    · have := body.landing h
      grind
  | .elif head body chain =>
    simp only [Chain.targets, List.mem_cons, List.mem_append, Prod.mk.injEq] at h
    simp only [Chain.flatten, List.mem_append]
    rcases h with ⟨-, rfl⟩ | ⟨-, rfl⟩ | h | h
    · have := chain.landing_endif
      grind
    · have := chain.landing_first
      grind
    · have := body.landing h
      grind
    · have := chain.landing h
      grind

end

theorem Head.ne_end {k : Keyword} (head : Head k) (hk : k ≠ .endKw) {op : Operation}
    (h : op ∈ head.ops) : op.action ≠ .keyword .endKw := by
  simp only [Head.ops, List.mem_cons, List.mem_append, List.mem_map, List.not_mem_nil,
    or_false] at h
  rcases h with rfl | ⟨p, -, rfl⟩ | rfl
  · simpa [head.opener.2] using hk
  · intro he
    have := p.2
    simp [he, Action.isStructural] at this
  · simp [head.test.2]

mutual

/-- No `END` stands in a sequence. -/
theorem Code.ne_end {l : Bool} (c : Code l) {op : Operation} (h : op ∈ c.flatten) :
    op.action ≠ .keyword .endKw := by
  match c with
  | .nil => cases h
  | .plain p rest =>
    rcases List.mem_cons.1 h with rfl | h
    · intro he
      have := p.2
      simp [he, Action.isStructural] at this
    · exact rest.ne_end h
  | .leave m rest =>
    rcases List.mem_cons.1 h with rfl | h
    · simp [m.2]
    · exact rest.ne_end h
  | .cond head body chain rest =>
    simp only [Code.flatten, List.mem_append] at h
    rcases h with h | h | h | h
    · exact head.ne_end (by decide) h
    · exact body.ne_end h
    · exact chain.ne_end h
    · exact rest.ne_end h
  | .loop head body done rest =>
    simp only [Code.flatten, List.mem_append, List.mem_cons] at h
    rcases h with h | h | rfl | h
    · exact head.ne_end (by decide) h
    · exact body.ne_end h
    · simp [done.2]
    · exact rest.ne_end h

/-- No `END` stands in a chain. -/
theorem Chain.ne_end {l : Bool} (chain : Chain l) {op : Operation} (h : op ∈ chain.flatten) :
    op.action ≠ .keyword .endKw := by
  match chain with
  | .close m =>
    rw [List.mem_singleton.1 h]
    simp [m.2]
  | .otherwise m body m' =>
    simp only [Chain.flatten, List.mem_cons, List.mem_append, List.not_mem_nil, or_false] at h
    rcases h with rfl | h | rfl
    · simp [m.2]
    · exact body.ne_end h
    · simp [m'.2]
  | .elif head body chain =>
    simp only [Chain.flatten, List.mem_append] at h
    rcases h with h | h | h
    · exact head.ne_end (by decide) h
    · exact body.ne_end h
    · exact chain.ne_end h

end

/-! ## The operations that have a link -/

/-- Whether operations with an action have a target. -/
def hasTarget : Action → Bool
  | .keyword .doKw | .keyword .doneKw | .keyword .elifKw | .keyword .elseKw | .keyword .whileKw
  | .keyword .breakKw => true
  | _ => false

/-- Whether operations with an action have an opener. -/
def hasOpener : Action → Bool
  | .keyword .doKw => true
  | _ => false

theorem filter_plains (f : Action → Bool)
    (hf : ∀ a : Action, a.isStructural = false → f a = false) (ps : List Plain) :
    (ps.map (·.1)).filter (fun o => f o.action) = [] := by
  simp only [List.filter_eq_nil_iff, List.mem_map]
  rintro o ⟨p, -, rfl⟩
  simp [hf _ p.2]

theorem hasTarget_plain : ∀ a : Action, a.isStructural = false → hasTarget a = false
  | .keyword _, h => by simp [Action.isStructural] at h
  | .pushInt, _ | .pushString, _ | .pushCString, _ | .pushArray, _ | .primitive _, _
  | .unassigned _, _ => rfl

theorem hasOpener_plain : ∀ a : Action, a.isStructural = false → hasOpener a = false
  | .keyword _, h => by simp [Action.isStructural] at h
  | .pushInt, _ | .pushString, _ | .pushCString, _ | .pushArray, _ | .primitive _, _
  | .unassigned _, _ => rfl

theorem filter_mark {k : Keyword} (f : Action → Bool) (m : Mark k) (ops : List Operation) :
    (m.1 :: ops).filter (fun o => f o.action) =
      if f (.keyword k) then m.1 :: ops.filter (fun o => f o.action)
      else ops.filter (fun o => f o.action) := by
  simp [List.filter_cons, m.2]

theorem filter_head {k : Keyword} (f : Action → Bool)
    (hf : ∀ a : Action, a.isStructural = false → f a = false) (head : Head k) :
    head.ops.filter (fun o => f o.action) =
      (if f (.keyword k) then [head.opener.1] else [])
        ++ (if f (.keyword .doKw) then [head.test.1] else []) := by
  rw [Head.ops, filter_mark, List.filter_append, filter_plains f hf, filter_mark]
  by_cases h : f (.keyword k) <;> simp [h]

mutual

/-- Of the operations of a sequence exactly those with a structural keyword other than `IF` and
`ENDIF` have a target. -/
theorem Code.keys_targets {l : Bool} (c : Code l) {exit : Option Operation}
    (he : l = true → exit.isSome) :
    (c.targets exit).map (·.1) = c.flatten.filter fun o => hasTarget o.action := by
  match c with
  | .nil => rfl
  | .plain p rest =>
    rw [Code.flatten, List.filter_cons, hasTarget_plain _ p.2]
    exact rest.keys_targets he
  | .leave op rest =>
    obtain ⟨d, rfl⟩ := Option.isSome_iff_exists.1 (he rfl)
    rw [Code.flatten, filter_mark, ← rest.keys_targets he]
    simp [Code.targets, hasTarget]
  | .cond head body chain rest =>
    simp only [Code.flatten, Code.targets, List.filter_append, List.map_cons, List.map_append,
      body.keys_targets he, chain.keys_targets he, rest.keys_targets he,
      filter_head _ hasTarget_plain]
    simp [hasTarget]
  | .loop head body done rest =>
    have hb : (body.targets (some done.1)).map (·.1) = _ := body.keys_targets fun _ => rfl
    simp only [Code.flatten, Code.targets, List.filter_append, List.map_cons, List.map_append,
      hb, rest.keys_targets he,
      filter_head _ hasTarget_plain, filter_mark]
    simp [hasTarget]

theorem Chain.keys_targets {l : Bool} (chain : Chain l) {exit : Option Operation}
    (he : l = true → exit.isSome) :
    (chain.targets exit).map (·.1) = chain.flatten.filter fun o => hasTarget o.action := by
  match chain with
  | .close endif =>
    rw [Chain.flatten, filter_mark]
    rfl
  | .otherwise op body endif =>
    simp only [Chain.flatten, Chain.targets, List.filter_append, List.map_cons,
      body.keys_targets he, filter_mark]
    simp [hasTarget]
  | .elif head body chain =>
    simp only [Chain.flatten, Chain.targets, List.filter_append, List.map_cons, List.map_append,
      body.keys_targets he, chain.keys_targets he, filter_head _ hasTarget_plain]
    simp [hasTarget]

end

mutual

/-- Of the operations of a sequence exactly the `DO`s have an opener. -/
theorem Code.keys_openers {l : Bool} (c : Code l) :
    c.openers.map (·.1) = c.flatten.filter fun o => hasOpener o.action := by
  match c with
  | .nil => rfl
  | .plain p rest =>
    rw [Code.flatten, List.filter_cons, hasOpener_plain _ p.2]
    exact rest.keys_openers
  | .leave op rest =>
    rw [Code.flatten, filter_mark]
    exact rest.keys_openers
  | .cond head body chain rest =>
    simp only [Code.flatten, Code.openers, List.filter_append, List.map_cons, List.map_append,
      body.keys_openers, chain.keys_openers, rest.keys_openers, filter_head _ hasOpener_plain]
    simp [hasOpener]
  | .loop head body done rest =>
    simp only [Code.flatten, Code.openers, List.filter_append, List.map_cons, List.map_append,
      body.keys_openers, rest.keys_openers, filter_head _ hasOpener_plain, filter_mark]
    simp [hasOpener]

theorem Chain.keys_openers {l : Bool} (chain : Chain l) :
    chain.openers.map (·.1) = chain.flatten.filter fun o => hasOpener o.action := by
  match chain with
  | .close endif =>
    rw [Chain.flatten, filter_mark]
    rfl
  | .otherwise op body endif =>
    simp only [Chain.flatten, Chain.openers, List.filter_append, body.keys_openers, filter_mark]
    simp [hasOpener]
  | .elif head body chain =>
    simp only [Chain.flatten, Chain.openers, List.filter_append, List.map_cons, List.map_append,
      body.keys_openers, chain.keys_openers, filter_head _ hasOpener_plain]
    simp [hasOpener]

end

/-! ## Loops -/

mutual

/-- Each `WHILE` of a sequence with its `DONE`. -/
def Code.loops {l : Bool} : Code l → List Link
  | .nil => []
  | .plain _ rest => rest.loops
  | .leave _ rest => rest.loops
  | .cond _ body chain rest => body.loops ++ (chain.loops ++ rest.loops)
  | .loop head body done rest => (head.opener.1, done.1) :: (body.loops ++ rest.loops)

/-- Each `WHILE` of a chain with its `DONE`. -/
def Chain.loops {l : Bool} : Chain l → List Link
  | .close _ => []
  | .otherwise _ body _ => body.loops
  | .elif _ body chain => body.loops ++ chain.loops

end

mutual

/-- The loops of a sequence are between its own operations. -/
theorem Code.mem_loops {l : Bool} (c : Code l) {w d : Operation} (h : (w, d) ∈ c.loops) :
    (w ∈ c.flatten ∧ w.action = .keyword .whileKw) ∧
      d ∈ c.flatten ∧ d.action = .keyword .doneKw := by
  match c with
  | .nil => cases h
  | .plain _ rest | .leave _ rest =>
    have := rest.mem_loops h
    simp only [Code.flatten, List.mem_cons]
    grind
  | .cond head body chain rest =>
    simp only [Code.loops, List.mem_append] at h
    simp only [Code.flatten, List.mem_append]
    rcases h with h | h | h
    · have := body.mem_loops h
      grind
    · have := chain.mem_loops h
      grind
    · have := rest.mem_loops h
      grind
  | .loop head body done rest =>
    simp only [Code.loops, List.mem_append, List.mem_cons, Prod.mk.injEq] at h
    simp only [Code.flatten, Head.ops, List.mem_append, List.mem_cons]
    rcases h with ⟨rfl, rfl⟩ | h | h
    · exact ⟨⟨by simp, head.opener.2⟩, by simp, done.2⟩
    · have := body.mem_loops h
      grind
    · have := rest.mem_loops h
      grind

theorem Chain.mem_loops {l : Bool} (chain : Chain l) {w d : Operation} (h : (w, d) ∈ chain.loops) :
    (w ∈ chain.flatten ∧ w.action = .keyword .whileKw) ∧
      d ∈ chain.flatten ∧ d.action = .keyword .doneKw := by
  match chain with
  | .close _ => cases h
  | .otherwise op body _ =>
    have := body.mem_loops h
    simp only [Chain.flatten, List.mem_cons, List.mem_append]
    grind
  | .elif head body chain =>
    simp only [Chain.loops, List.mem_append] at h
    simp only [Chain.flatten, List.mem_append]
    rcases h with h | h
    · have := body.mem_loops h
      grind
    · have := chain.mem_loops h
      grind

end

theorem mark_key {k k' : Keyword} (m : Mark k) {o : Operation} (ho : o.action = .keyword k')
    (h : k ≠ k') : o ≠ m.1 := (mark_ne m ⟨o, ho⟩ h).symm

mutual

/-- The targets of `WHILE` and `DONE` are those of the loops, both ways. -/
theorem Code.mem_targets_loops {l : Bool} (c : Code l) (exit : Option Operation)
    (o t : Operation) :
    (o.action = .keyword .whileKw → ((o, t) ∈ c.targets exit ↔ (o, t) ∈ c.loops)) ∧
      (o.action = .keyword .doneKw → ((o, t) ∈ c.targets exit ↔ (t, o) ∈ c.loops)) := by
  match c with
  | .nil => simp [Code.targets, Code.loops]
  | .plain _ rest => exact rest.mem_targets_loops exit o t
  | .leave op rest =>
    have h := rest.mem_targets_loops exit o t
    simp only [Code.targets, Code.loops, List.mem_append, List.mem_map, Prod.mk.injEq]
    refine ⟨fun ho => ?_, fun ho => ?_⟩
    · have hne := mark_key op ho (by decide)
      grind
    · have hne := mark_key op ho (by decide)
      grind
  | .cond head body chain rest =>
    have h1 := body.mem_targets_loops exit o t
    have h2 := chain.mem_targets_loops exit o t
    have h3 := rest.mem_targets_loops exit o t
    simp only [Code.targets, Code.loops, List.mem_append, List.mem_cons, Prod.mk.injEq]
    refine ⟨fun ho => ?_, fun ho => ?_⟩
    · simp [mark_key head.test ho (by decide), h1.1 ho, h2.1 ho, h3.1 ho]
    · simp [mark_key head.test ho (by decide), h1.2 ho, h2.2 ho, h3.2 ho]
  | .loop head body done rest =>
    have h1 := body.mem_targets_loops (some done.1) o t
    have h2 := rest.mem_targets_loops exit o t
    simp only [Code.targets, Code.loops, List.mem_append, List.mem_cons, Prod.mk.injEq]
    refine ⟨fun ho => ?_, fun ho => ?_⟩
    · simp [mark_key head.test ho (by decide), mark_key done ho (by decide), h1.1 ho, h2.1 ho]
    · have hopener := mark_key head.opener ho (by decide)
      have htest := mark_key head.test ho (by decide)
      grind

theorem Chain.mem_targets_loops {l : Bool} (chain : Chain l) (exit : Option Operation)
    (o t : Operation) :
    (o.action = .keyword .whileKw → ((o, t) ∈ chain.targets exit ↔ (o, t) ∈ chain.loops)) ∧
      (o.action = .keyword .doneKw → ((o, t) ∈ chain.targets exit ↔ (t, o) ∈ chain.loops)) := by
  match chain with
  | .close _ => simp [Chain.targets, Chain.loops]
  | .otherwise op body _ =>
    have h := body.mem_targets_loops exit o t
    simp only [Chain.targets, Chain.loops, List.mem_cons, Prod.mk.injEq]
    refine ⟨fun ho => ?_, fun ho => ?_⟩
    · simp [mark_key op ho (by decide), h.1 ho]
    · simp [mark_key op ho (by decide), h.2 ho]
  | .elif head body chain =>
    have h1 := body.mem_targets_loops exit o t
    have h2 := chain.mem_targets_loops exit o t
    simp only [Chain.targets, Chain.loops, List.mem_append, List.mem_cons, Prod.mk.injEq]
    refine ⟨fun ho => ?_, fun ho => ?_⟩
    · simp [mark_key head.test ho (by decide), mark_key head.opener ho (by decide), h1.1 ho,
        h2.1 ho]
    · simp [mark_key head.test ho (by decide), mark_key head.opener ho (by decide), h1.2 ho,
        h2.2 ho]

end

end BlockTree

/-! ## Entries -/

namespace BlockTable

open BlockTree (Link)

theorem getElem?_enter_of_ne {ls : List Link} {i : Nat} (h : ∀ x ∈ ls, x.1.place ≠ i)
    (t : Array (Option Nat)) : (enter t ls)[i]? = t[i]? := by
  induction ls generalizing t with
  | nil => rfl
  | cons x ls ih =>
    have hx : x.1.place ≠ i := h x (by simp)
    rw [← List.singleton_append, ← enter_append, ih fun y hy => h y (by simp [hy])]
    simp [enter, hx]

/-- Of links with different keys each is found. -/
theorem getElem?_enter_of_mem {ls : List Link} {x : Link} (hx : x ∈ ls)
    (hk : ∀ y ∈ ls, ∀ z ∈ ls, y.1.place = z.1.place → y = z) {t : Array (Option Nat)}
    (ht : x.1.place < t.size) : (enter t ls)[x.1.place]? = some (some x.2.place) := by
  induction ls generalizing t with
  | nil => cases hx
  | cons y ls ih =>
    rw [← List.singleton_append, ← enter_append]
    by_cases hm : x ∈ ls
    · exact ih hm (fun y hy z hz => hk y (by simp [hy]) z (by simp [hz])) (by simpa [enter] using ht)
    · have hxy : x = y := by simpa [hm] using hx
      subst hxy
      rw [getElem?_enter_of_ne]
      · simp [enter, ht]
      · intro z hz he
        exact hm (hk z (by simp [hz]) x (by simp) he ▸ hz)

/-- The entries of a table that was empty. -/
theorem entry?_enter_iff {n : Nat} {ls : List Link}
    (hk : ∀ y ∈ ls, ∀ z ∈ ls, y.1.place = z.1.place → y = z) (hn : ∀ x ∈ ls, x.1.place < n)
    (i j : Nat) :
    entry? (enter (Array.replicate n none) ls) i = some j ↔
      ∃ x ∈ ls, x.1.place = i ∧ x.2.place = j := by
  have hentry : entry? (enter (Array.replicate n none) ls) i
      = (enter (Array.replicate n none) ls)[i]?.join := rfl
  rw [hentry]
  constructor
  · intro h
    by_cases hi : ∃ x ∈ ls, x.1.place = i
    · obtain ⟨x, hx, rfl⟩ := hi
      rw [getElem?_enter_of_mem hx hk (by simpa using hn x hx)] at h
      exact ⟨x, hx, rfl, by simpa using h⟩
    · rw [getElem?_enter_of_ne fun x hx he => hi ⟨x, hx, he⟩] at h
      rw [Array.getElem?_replicate] at h
      split at h <;> simp at h
  · rintro ⟨x, hx, rfl, rfl⟩
    rw [getElem?_enter_of_mem hx hk (by simpa using hn x hx)]
    rfl

end BlockTable

namespace Blocks

open BlockTree

/-- Operations of a program with one place are one operation. -/
theorem eq_of_place_eq {prog : Program} (hi : prog.Indexed) {o o' : Operation} (ho : o ∈ prog)
    (ho' : o' ∈ prog) (h : o.place = o'.place) : o = o' := by
  have h1 := (hi.placed ho).2
  rw [h, (hi.placed ho').2, Option.some.injEq] at h1
  exact h1.symm

theorem nodup_of_indexed {prog : Program} (hi : prog.Indexed) : prog.Nodup := by
  rw [List.Nodup, List.pairwise_iff_getElem]
  intro i j hi' hj' hlt he
  have h1 := hi i _ (List.getElem?_eq_getElem hi')
  have h2 := hi j _ (List.getElem?_eq_getElem hj')
  rw [he, h2] at h1
  omega

/-- Links whose keys are operations of the program, each of them once, have different keys. -/
theorem eq_of_key_eq {prog : Program} (hi : prog.Indexed) {ls : List Link}
    (hs : (ls.map (·.1)).Sublist prog) :
    ∀ y ∈ ls, ∀ z ∈ ls, y.1.place = z.1.place → y = z := by
  have hnd : (ls.map (·.1)).Nodup := (nodup_of_indexed hi).sublist hs
  intro y hy z hz h
  have hkey : y.1 = z.1 := eq_of_place_eq hi (hs.subset (List.mem_map_of_mem hy))
    (hs.subset (List.mem_map_of_mem hz)) h
  exact List.inj_on_of_nodup_map hnd hy hz hkey

section
variable {c : Code false} {table : BlockTable}

/-- **The openers in the table are the tree's.** -/
theorem opener?_iff (hc : Program.Indexed c.flatten) (h : resolve c.flatten = .ok table)
    (i j : Nat) :
    table.opener? i = some j ↔ ∃ x ∈ c.openers, x.1.place = i ∧ x.2.place = j := by
  rw [resolve_flatten hc, Except.ok.injEq] at h
  subst h
  have hs : (c.openers.map (·.1)).Sublist c.flatten := by
    rw [c.keys_openers]
    exact List.filter_sublist
  exact BlockTable.entry?_enter_iff (eq_of_key_eq hc hs)
    (fun x hx => (hc.placed (hs.subset (List.mem_map_of_mem hx))).lt) i j

/-- **The targets in the table are the tree's.** -/
theorem target?_iff (hc : Program.Indexed c.flatten) (h : resolve c.flatten = .ok table)
    (i j : Nat) :
    table.target? i = some j ↔ ∃ x ∈ c.targets none, x.1.place = i ∧ x.2.place = j := by
  rw [resolve_flatten hc, Except.ok.injEq] at h
  subst h
  have hs : ((c.targets none).map (·.1)).Sublist c.flatten := by
    rw [c.keys_targets (by simp)]
    exact List.filter_sublist
  -- the links are entered in another order, which does not matter as their keys differ
  have hw : ∀ x, x ∈ c.writes ↔ x ∈ c.targets none := by
    rintro ⟨o, t⟩
    simp [c.mem_targets_iff none o t]
  have hkeys : ∀ y ∈ c.writes, ∀ z ∈ c.writes, y.1.place = z.1.place → y = z :=
    fun y hy z hz => eq_of_key_eq hc hs y ((hw y).1 hy) z ((hw z).1 hz)
  have hlt : ∀ x ∈ c.writes, x.1.place < c.flatten.length :=
    fun x hx => (hc.placed (hs.subset (List.mem_map_of_mem ((hw x).1 hx)))).lt
  have hentry := BlockTable.entry?_enter_iff hkeys hlt i j
  simp only [hw] at hentry
  exact hentry

end

end Blocks

end StackLang
