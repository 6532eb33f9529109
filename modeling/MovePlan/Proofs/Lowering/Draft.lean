import MovePlan.Proofs.Answer
import MovePlan.Proofs.Lowering.Machine

set_option autoImplicit false

namespace MovePlan

theorem numberedInstrs_append (xs ys : List Event) (v : ℕ) :
    numberedInstrs (xs ++ ys) v =
      numberedInstrs xs v ++ numberedInstrs ys (v + (numberedInstrs xs v).length) := by
  induction xs generalizing v with
  | nil => rfl
  | cons x xs ih =>
    cases x with
    | block name => exact ih v
    | instr b name i =>
      have hnext : v + ((numberedInstrs xs (v + 1)).length + 1) =
          v + 1 + (numberedInstrs xs (v + 1)).length := by omega
      rw [List.cons_append, numberedInstrs, ih, numberedInstrs, List.length_cons, hnext,
        List.cons_append]

namespace Code

theorem instrsAt_append (xs ys : Code) (b : BlockNo) :
    instrsAt (xs ++ ys) b = instrsAt xs b ++ instrsAt ys b := by
  rw [instrsAt, List.filter_append, List.map_append]
  rfl

theorem instrsAt_eq_nil {xs : Code} {b : BlockNo} (h : ∀ x ∈ xs, x.2.1 ≠ b) : xs.instrsAt b = [] := by
  rw [instrsAt, List.map_eq_nil_iff, List.filter_eq_nil_iff]
  intro x hx
  simpa using h x hx

end Code

namespace Draft
variable {d d' d'' : Draft} {whole : Code} {l : Layout}

def code (d : Draft) : Code := numberedInstrs d.trail.reverse 0

/-- The instructions are numbered without gaps, and stand in blocks that have been made. -/
structure Sound (d : Draft) : Prop where
  values : d.code.length = d.values
  blocks : ∀ x ∈ d.code, x.2.1 < d.blocks
  here : d.here < d.blocks

structure Extends (d d' : Draft) : Prop where
  sound : d'.Sound
  trail : d.trail <:+ d'.trail
  blocks : d.blocks ≤ d'.blocks
  added : ∃ new : Code, d'.code = d.code ++ new ∧ ∀ x ∈ new, x.2.1 = d.here ∨ d.blocks ≤ x.2.1
  here : d'.here = d.here ∨ d.blocks ≤ d'.here

namespace Extends

theorem refl (hd : d.Sound) : d.Extends d :=
  ⟨hd, List.suffix_rfl, Nat.le_refl _, ⟨[], by simp⟩, .inl rfl⟩

theorem trans (h : d.Extends d') (h' : d'.Extends d'') : d.Extends d'' := by
  obtain ⟨new, hnew, hin⟩ := h.added
  obtain ⟨new', hnew', hin'⟩ := h'.added
  have hblocks := h.blocks
  refine ⟨h'.sound, h.trail.trans h'.trail, Nat.le_trans h.blocks h'.blocks,
    ⟨new ++ new', ?_, ?_⟩, ?_⟩
  · rw [hnew', hnew, List.append_assoc]
  · intro x hx
    rcases List.mem_append.1 hx with hx | hx
    · exact hin x hx
    · rcases hin' x hx with hplace | hplace
      · rw [hplace]
        exact h.here
      · exact .inr (Nat.le_trans hblocks hplace)
  · rcases h'.here with hhere | hhere
    · rw [hhere]
      exact h.here
    · exact .inr (Nat.le_trans hblocks hhere)

theorem code_isPrefix (h : d.Extends d') : d.code <+: d'.code := by
  obtain ⟨new, hnew, _⟩ := h.added
  exact ⟨new, hnew.symm⟩

theorem values_le (hd : d.Sound) (h : d.Extends d') : d.values ≤ d'.values := by
  rw [← hd.values, ← h.sound.values]
  exact h.code_isPrefix.length_le

theorem goTo (h : d.Extends d') {b : BlockNo} (hb : b = d.here ∨ d.blocks ≤ b) (hlt : b < d'.blocks) :
    d.Extends (d'.goTo b) :=
  ⟨⟨h.sound.values, h.sound.blocks, hlt⟩, h.trail, h.blocks, h.added, hb⟩

theorem foldl {α : Type} {g : Draft → α → Draft}
    (hg : ∀ {d : Draft}, d.Sound → ∀ x, d.Extends (g d x)) (hd : d.Sound) (xs : List α) :
    d.Extends (xs.foldl g d) := by
  induction xs generalizing d with
  | nil => exact .refl hd
  | cons x xs ih => exact (hg hd x).trans (ih (hg hd x).sound)

end Extends

theorem code_newBlock (d : Draft) (name : BlockName) : (d.newBlock name).1.code = d.code := by
  change numberedInstrs (.block name :: d.trail).reverse 0 = _
  rw [List.reverse_cons, numberedInstrs_append, numberedInstrs, numberedInstrs, List.append_nil]
  rfl

theorem code_emit (hd : d.Sound) (name : String) (i : Instr) :
    (d.emit name i).1.code = d.code ++ [(d.values, d.here, i)] := by
  change numberedInstrs (.instr d.here name i :: d.trail).reverse 0 = _
  rw [List.reverse_cons, numberedInstrs_append, numberedInstrs, numberedInstrs]
  change d.code ++ [(0 + d.code.length, d.here, i)] = _
  rw [Nat.zero_add, hd.values]

theorem extends_newBlock (hd : d.Sound) (name : BlockName) : d.Extends (d.newBlock name).1 := by
  refine ⟨⟨?_, ?_, ?_⟩, List.suffix_cons _ _, Nat.le_succ _, ⟨[], ?_, by simp⟩, .inl rfl⟩
  · rw [code_newBlock]
    exact hd.values
  · intro x hx
    rw [code_newBlock] at hx
    exact Nat.lt_succ_of_lt (hd.blocks x hx)
  · exact Nat.lt_succ_of_lt hd.here
  · rw [code_newBlock, List.append_nil]

theorem extends_emit (hd : d.Sound) (name : String) (i : Instr) : d.Extends (d.emit name i).1 := by
  have hcode := code_emit hd name i
  refine ⟨⟨?_, ?_, hd.here⟩, List.suffix_cons _ _, Nat.le_refl _, ⟨_, hcode, ?_⟩, .inl rfl⟩
  · rw [hcode, List.length_append, hd.values]
    rfl
  · intro x hx
    rw [hcode, List.mem_append, List.mem_singleton] at hx
    rcases hx with hx | rfl
    · exact hd.blocks x hx
    · exact hd.here
  · intro x hx
    rw [List.mem_singleton.1 hx]
    exact .inl rfl

theorem extends_put (hd : d.Sound) (i : Instr) : d.Extends (d.put i) := extends_emit hd "" i

theorem extends_globals (hd : d.Sound) (globals : OrderedMap String Global) :
    d.Extends { d with globals := globals } :=
  ⟨⟨hd.values, hd.blocks, hd.here⟩, List.suffix_rfl, Nat.le_refl _, ⟨[], (List.append_nil _).symm, by simp⟩,
    .inl rfl⟩

theorem call_eq (d : Draft) (callee : String) (s : Signature) (args : List Operand) :
    ∃ globals result, d.call callee s args =
      ({ d with globals := globals } : Draft).emit "" (.call callee result args) := by
  unfold call
  split
  · exact ⟨d.globals, _, rfl⟩
  · exact ⟨_, _, rfl⟩

@[simp] theorem here_call (d : Draft) (callee : String) (s : Signature) (args : List Operand) :
    (d.call callee s args).1.here = d.here := by
  obtain ⟨globals, result, h⟩ := call_eq d callee s args
  rw [h]
  rfl

@[simp] theorem number_call (d : Draft) (callee : String) (s : Signature) (args : List Operand) :
    (d.call callee s args).2 = d.values := by
  obtain ⟨globals, result, h⟩ := call_eq d callee s args
  rw [h]
  rfl

theorem extends_call (hd : d.Sound) (callee : String) (s : Signature) (args : List Operand) :
    d.Extends (d.call callee s args).1 := by
  obtain ⟨globals, result, h⟩ := call_eq d callee s args
  have hglobals := extends_globals hd globals
  rw [h]
  exact hglobals.trans (extends_emit hglobals.sound _ _)

theorem extends_step (hd : d.Sound) (x : Step) : d.Extends (step l d x) := by
  cases x with
  | store flag value => exact extends_put hd _
  | mark marker site => exact extends_call hd _ _ _

theorem extends_steps (hd : d.Sound) (xs : List Step) : d.Extends (xs.foldl (step l) d) :=
  .foldl (fun hd x => extends_step hd x) hd xs

theorem here_steps (d : Draft) (xs : List Step) : (xs.foldl (step l) d).here = d.here := by
  induction xs generalizing d with
  | nil => rfl
  | cons x xs ih =>
    rw [List.foldl_cons, ih]
    cases x with
    | store flag value => rfl
    | mark marker site => exact here_call d _ _ _

theorem extends_dropCall (hd : d.Sound) (x : Drop) : d.Extends (d.dropCall l x) :=
  extends_call hd _ _ _

theorem declareDrop_eq (d : Draft) (x : Drop) :
    ∃ globals, d.declareDrop x = { d with globals := globals } := by
  unfold declareDrop
  split
  · exact ⟨d.globals, rfl⟩
  · exact ⟨_, rfl⟩

def guardedBlocks (l : Layout) (d : Draft) (x : Drop) (flag : String) : Draft :=
  ((((d.declareDrop x).emit "" (.load (l.flag flag))).1.newBlock (.suffixed d.here ".if")).1.newBlock
    (.suffixed d.here ".endif")).1

def guardedBody (l : Layout) (d : Draft) (x : Drop) (flag : String) : Draft :=
  ((guardedBlocks l d x flag).put (.branchIf d.values d.blocks (d.blocks + 1))).goTo d.blocks

theorem drop_of_guard {x : Drop} {flag : String} (h : x.guard = some flag) : d.drop l x =
    (((guardedBody l d x flag).dropCall l x).put (.branch (d.blocks + 1))).goTo (d.blocks + 1) := by
  obtain ⟨globals, hglobals⟩ := declareDrop_eq d x
  unfold drop guardedBody guardedBlocks
  rw [h, hglobals]
  rfl

theorem drop_of_no_guard {x : Drop} (h : x.guard = none) : d.drop l x = d.dropCall l x := by
  unfold drop
  rw [h]

theorem extends_guardedBlocks (hd : d.Sound) (x : Drop) (flag : String) :
    d.Extends (guardedBlocks l d x flag) := by
  obtain ⟨globals, hglobals⟩ := declareDrop_eq d x
  unfold guardedBlocks
  rw [hglobals]
  have h₀ := extends_globals hd globals
  have h₁ := h₀.trans (extends_emit h₀.sound "" (.load (l.flag flag)))
  have h₂ := h₁.trans (extends_newBlock h₁.sound (.suffixed d.here ".if"))
  exact h₂.trans (extends_newBlock h₂.sound (.suffixed d.here ".endif"))

@[simp] theorem here_guardedBlocks (d : Draft) (x : Drop) (flag : String) :
    (guardedBlocks l d x flag).here = d.here := by
  obtain ⟨globals, hglobals⟩ := declareDrop_eq d x
  unfold guardedBlocks
  rw [hglobals]
  rfl

@[simp] theorem blocks_guardedBlocks (d : Draft) (x : Drop) (flag : String) :
    (guardedBlocks l d x flag).blocks = d.blocks + 2 := by
  obtain ⟨globals, hglobals⟩ := declareDrop_eq d x
  unfold guardedBlocks
  rw [hglobals]
  rfl

theorem extends_guardedBody (hd : d.Sound) (x : Drop) (flag : String) :
    d.Extends (guardedBody l d x flag) := by
  have hblocks := extends_guardedBlocks (l := l) hd x flag
  have hput := hblocks.trans (extends_put hblocks.sound (.branchIf d.values d.blocks (d.blocks + 1)))
  refine hput.goTo (.inr (Nat.le_refl _)) ?_
  change d.blocks < (guardedBlocks l d x flag).blocks
  rw [blocks_guardedBlocks]
  omega

theorem extends_drop (hd : d.Sound) (x : Drop) : d.Extends (d.drop l x) := by
  cases hguard : x.guard with
  | none =>
    rw [drop_of_no_guard hguard]
    exact extends_dropCall hd x
  | some flag =>
    -- the draft stays in the block behind the drop, which is new
    rw [drop_of_guard hguard]
    have hbody := extends_guardedBody (l := l) hd x flag
    have hcall := hbody.trans (extends_dropCall (l := l) hbody.sound x)
    have hput := hcall.trans (extends_put hcall.sound (.branch (d.blocks + 1)))
    refine hput.goTo (.inr (Nat.le_succ _)) ?_
    have hle : (guardedBody l d x flag).blocks ≤ ((guardedBody l d x flag).dropCall l x).blocks :=
      (extends_dropCall hbody.sound x).blocks
    have heq : (guardedBody l d x flag).blocks = d.blocks + 2 := blocks_guardedBlocks d x flag
    change d.blocks + 1 < ((guardedBody l d x flag).dropCall l x).blocks
    omega

theorem extends_drops (hd : d.Sound) (xs : List Drop) : d.Extends (xs.foldl (drop l) d) :=
  .foldl (fun hd x => extends_drop hd x) hd xs

def inNewBlock (d : Draft) (name : BlockName) : Draft := (d.newBlock name).1.goTo d.blocks

theorem extends_inNewBlock (hd : d.Sound) (name : BlockName) : d.Extends (d.inNewBlock name) :=
  (extends_newBlock hd name).goTo (.inr (Nat.le_refl _)) (Nat.lt_succ_self _)

theorem successor_through (l : Layout) (d : Draft) (src dst : BlockId) (drops : List Drop) :
    d.successor l (.through src dst drops) =
      ((drops.foldl (drop l) (d.inNewBlock (.plain s!"bb{src}.to.bb{dst}"))).put (.branch (l.block dst)),
        d.blocks) := rfl

theorem extends_successor (hd : d.Sound) (x : Successor) : d.Extends (d.successor l x).1 := by
  cases x with
  | direct dst => exact .refl hd
  | through src dst drops =>
    rw [successor_through]
    have hblock := extends_inNewBlock hd (.plain s!"bb{src}.to.bb{dst}")
    have hdrops := hblock.trans (extends_drops (l := l) hblock.sound drops)
    exact hdrops.trans (extends_put hdrops.sound _)

theorem extends_successors (hd : d.Sound) (xs : List Successor) : d.Extends (successors l xs d).1 := by
  induction xs generalizing d with
  | nil => exact .refl hd
  | cons x xs ih =>
    have hfirst : d.Extends (d.successor l x).1 := extends_successor hd x
    exact hfirst.trans (ih hfirst.sound)

/-- The instructions of a block that come after the draft. -/
def pending (whole : Code) (d : Draft) (b : BlockNo) : List (ValueNo × Instr) :=
  Code.instrsAt (whole.drop d.values) b

theorem code_drop (hd : d.Sound) {more : Code} (h : whole = d.code ++ more) :
    whole.drop d.values = more := by
  rw [h, ← hd.values]
  exact List.drop_left

theorem pending_emit (hd : d.Sound) {name : String} {i : Instr}
    (h : (d.emit name i).1.code <+: whole) :
    pending whole d d.here = (d.values, i) :: pending whole (d.emit name i).1 d.here := by
  obtain ⟨more, hmore⟩ := h
  have hcode := hmore
  rw [code_emit hd, List.append_assoc] at hcode
  rw [pending, pending, code_drop hd hcode.symm, code_drop (extends_emit hd name i).sound hmore.symm,
    Code.instrsAt_append, Code.instrsAt]
  simp

theorem pending_call (hd : d.Sound) {callee : String} {s : Signature} {args : List Operand}
    (h : (d.call callee s args).1.code <+: whole) :
    ∃ result, pending whole d d.here =
      (d.values, .call callee result args) :: pending whole (d.call callee s args).1 d.here := by
  obtain ⟨globals, result, heq⟩ := call_eq d callee s args
  rw [heq] at h
  rw [heq]
  exact ⟨result, pending_emit (extends_globals hd globals).sound h⟩

theorem pending_of_extends (hd : d.Sound) (he : d.Extends d') (h : d'.code <+: whole) {b : BlockNo}
    (hb : b ≠ d.here) (hlt : b < d.blocks) : pending whole d' b = pending whole d b := by
  obtain ⟨more, hmore⟩ := h
  obtain ⟨new, hnew, hin⟩ := he.added
  have hcode := hmore
  rw [hnew, List.append_assoc] at hcode
  -- everything new is in the block of the draft or in a block that is new itself
  have hnone : Code.instrsAt new b = [] := by
    refine Code.instrsAt_eq_nil fun x hx => ?_
    rcases hin x hx with hplace | hplace
    · rw [hplace]
      exact hb.symm
    · exact Nat.ne_of_gt (Nat.lt_of_lt_of_le hlt hplace)
  rw [pending, pending, code_drop hd hcode.symm, code_drop he.sound hmore.symm, Code.instrsAt_append,
    hnone, List.nil_append]

theorem pending_eq_instrsAt (hd : d.Sound) (h : d.code <+: whole) {b : BlockNo}
    (hb : ∀ x ∈ d.code, x.2.1 ≠ b) : pending whole d b = whole.instrsAt b := by
  obtain ⟨more, hmore⟩ := h
  rw [pending, code_drop hd hmore.symm, ← hmore, Code.instrsAt_append, Code.instrsAt_eq_nil hb,
    List.nil_append]

theorem code_emit_ne (hd : d.Sound) {name : String} {i : Instr} {b : BlockNo}
    (h : ∀ x ∈ d.code, x.2.1 ≠ b) (hb : d.here ≠ b) : ∀ x ∈ (d.emit name i).1.code, x.2.1 ≠ b := by
  intro x hx
  rw [code_emit hd, List.mem_append, List.mem_singleton] at hx
  rcases hx with hx | rfl
  · exact h x hx
  · exact hb

theorem code_call_ne (hd : d.Sound) {callee : String} {s : Signature} {args : List Operand} {b : BlockNo}
    (h : ∀ x ∈ d.code, x.2.1 ≠ b) (hb : d.here ≠ b) :
    ∀ x ∈ (d.call callee s args).1.code, x.2.1 ≠ b := by
  obtain ⟨globals, result, heq⟩ := call_eq d callee s args
  rw [heq]
  exact code_emit_ne (extends_globals hd globals).sound h hb

theorem pending_of_new (hd : d.Sound) (h : d.code <+: whole) {b : BlockNo} (hb : d.blocks ≤ b) :
    pending whole d b = whole.instrsAt b := by
  refine pending_eq_instrsAt hd h fun x hx => ?_
  exact Nat.ne_of_lt (Nat.lt_of_lt_of_le (hd.blocks x hx) hb)

end Draft
end MovePlan
